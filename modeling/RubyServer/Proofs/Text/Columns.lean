import Mathlib.Order.Bounds.Basic
import RubyServer.Text.Units

/-!
# Columns count whole characters

Bytes and UTF-16 code units are two ways to give every character a size. Whatever the sizes are, the characters at the
start of a text that take up at most so much are its longest prefix of that size (`LongestPrefix`, `takeBy_longest`), and
a text takes up all of its own size (`takeBy_append_add`). What is said about `takeBytes` and `takeUnits` follows from this,
and with it what the two conversions of columns do: a UTF-16 column goes to the last boundary between characters that is
not behind it (`isGreatest_byteColumn`), and a byte column to the code units of the characters that end before it
(`unitColumn_eq_of_longest`).
-/

namespace RubyServer.Text

/-! ## Sizes -/

/-- The size of a text in which the characters count as `w` says. -/
def sizeBy (w : Char → Nat) : Text → Nat
  | [] => 0
  | c :: t => w c + sizeBy w t

/-- The longest run of whole characters at the start of a text that counts for at most `n`. -/
def takeBy (w : Char → Nat) (n : Nat) : Text → Text
  | [] => []
  | c :: t => if w c ≤ n then c :: takeBy w (n - w c) t else []

/-- The longest prefix of a text of at most a given size. -/
structure LongestPrefix (size : Text → Nat) (n : Nat) (t u : Text) : Prop where
  isPrefix : u <+: t
  size_le : size u ≤ n
  longest : ∀ v, v <+: t → size v ≤ n → v <+: u

section Sizes

variable {w : Char → Nat}

theorem sizeBy_append : ∀ t u : Text, sizeBy w (t ++ u) = sizeBy w t + sizeBy w u
  | [], u => by simp [sizeBy]
  | c :: t, u => by simp only [List.cons_append, sizeBy, sizeBy_append t u]; omega

theorem length_le_sizeBy (hw : ∀ c, 0 < w c) : ∀ t : Text, t.length ≤ sizeBy w t
  | [] => Nat.le_refl 0
  | c :: t => by
    have hc := hw c
    have ht := length_le_sizeBy hw t
    rw [List.length_cons, sizeBy]
    omega

theorem takeBy_zero (hw : ∀ c, 0 < w c) : ∀ t : Text, takeBy w 0 t = []
  | [] => rfl
  | c :: t => by
    have h := hw c
    rw [takeBy, if_neg (by omega)]

/-- A text takes up its size, and what follows it has the rest. -/
theorem takeBy_append_add (n : Nat) : ∀ t u : Text, takeBy w (sizeBy w t + n) (t ++ u) = t ++ takeBy w n u
  | [], u => by rw [sizeBy, Nat.zero_add, List.nil_append, List.nil_append]
  | c :: t, u => by
    rw [List.cons_append, sizeBy, Nat.add_assoc, takeBy, if_pos (Nat.le_add_right _ _), Nat.add_sub_cancel_left,
      takeBy_append_add n t u, List.cons_append]

theorem takeBy_append (hw : ∀ c, 0 < w c) (t u : Text) : takeBy w (sizeBy w t) (t ++ u) = t := by
  have h := takeBy_append_add 0 t u (w := w)
  rwa [Nat.add_zero, takeBy_zero hw, List.append_nil] at h

/-- What takes up no more than the start of a text is taken from the start. -/
theorem takeBy_min (hw : ∀ c, 0 < w c) (n : Nat) (t u : Text) : takeBy w (min n (sizeBy w t)) (t ++ u) = takeBy w n t := by
  induction t generalizing n with
  | nil => rw [sizeBy, Nat.min_zero, takeBy_zero hw, takeBy]
  | cons c t ih =>
    rw [List.cons_append, sizeBy, takeBy, takeBy]
    by_cases hc : w c ≤ n
    · rw [if_pos (by omega), if_pos hc, show min n (w c + sizeBy w t) - w c = min (n - w c) (sizeBy w t) by omega, ih]
    · rw [if_neg (by omega), if_neg hc]

theorem takeBy_longest (n : Nat) (t : Text) : LongestPrefix (sizeBy w) n t (takeBy w n t) := by
  induction t generalizing n with
  | nil => exact ⟨List.prefix_rfl, Nat.zero_le n, fun _ hv _ => hv⟩
  | cons c t ih =>
    rw [takeBy]
    by_cases hc : w c ≤ n
    · obtain ⟨hfront, hsize, hlongest⟩ := ih (n - w c)
      rw [if_pos hc]
      refine ⟨List.cons_prefix_cons.mpr ⟨rfl, hfront⟩, by rw [sizeBy]; omega, ?_⟩
      intro v hv hn
      cases v with
      | nil => exact List.nil_prefix
      | cons d v =>
        obtain ⟨rfl, hrest⟩ := List.cons_prefix_cons.mp hv
        rw [sizeBy] at hn
        exact List.cons_prefix_cons.mpr ⟨rfl, hlongest v hrest (by omega)⟩
    · rw [if_neg hc]
      refine ⟨List.nil_prefix, Nat.zero_le n, ?_⟩
      intro v hv hn
      cases v with
      | nil => exact List.nil_prefix
      | cons d v =>
        obtain ⟨rfl, -⟩ := List.cons_prefix_cons.mp hv
        rw [sizeBy] at hn
        omega

end Sizes

namespace LongestPrefix

variable {size : Text → Nat} {m n : Nat} {t u v : Text}

theorem unique (hu : LongestPrefix size n t u) (hv : LongestPrefix size n t v) : u = v := by
  have huv := hv.longest u hu.isPrefix hu.size_le
  have hvu := hu.longest v hv.isPrefix hv.size_le
  exact huv.eq_of_length_le hvu.length_le

/-- What has room in less has room in more. -/
theorem mono (hu : LongestPrefix size m t u) (hv : LongestPrefix size n t v) (hmn : m ≤ n) : u <+: v :=
  hv.longest u hu.isPrefix (hu.size_le.trans hmn)

/-- The length of the longest prefix is the greatest number of characters that have room. -/
theorem isGreatest_length (h : LongestPrefix size n t u) :
    IsGreatest {i | i ≤ t.length ∧ size (t.take i) ≤ n} u.length := by
  refine ⟨⟨h.isPrefix.length_le, ?_⟩, ?_⟩
  · show size (t.take u.length) ≤ n
    rw [← List.prefix_iff_eq_take.mp h.isPrefix]
    exact h.size_le
  · rintro i ⟨hi, hsize⟩
    have hle := (h.longest _ (List.take_prefix i t) hsize).length_le
    rwa [List.length_take, Nat.min_eq_left hi] at hle

end LongestPrefix

/-! ## Code units -/

theorem unitsOf_pos (c : Char) : 0 < unitsOf c := by
  unfold unitsOf
  split <;> omega

theorem unitSize_eq : ∀ t : Text, unitSize t = sizeBy unitsOf t
  | [] => rfl
  | c :: t => by rw [unitSize, sizeBy, unitSize_eq t]

theorem takeUnits_eq : ∀ (n : Nat) (t : Text), takeUnits n t = takeBy unitsOf n t
  | _, [] => rfl
  | n, c :: t => by rw [takeUnits, takeBy, takeUnits_eq (n - unitsOf c) t]

theorem takeUnits_longest (n : Nat) (t : Text) : LongestPrefix unitSize n t (takeUnits n t) := by
  rw [funext unitSize_eq, takeUnits_eq]
  exact takeBy_longest n t

theorem unitSize_append (t u : Text) : unitSize (t ++ u) = unitSize t + unitSize u := by
  simp only [unitSize_eq, sizeBy_append]

theorem length_le_unitSize (t : Text) : t.length ≤ unitSize t := by
  rw [unitSize_eq]
  exact length_le_sizeBy unitsOf_pos t

theorem takeUnits_zero (t : Text) : takeUnits 0 t = [] := by
  rw [takeUnits_eq, takeBy_zero unitsOf_pos]

/-- A text fits exactly into as many code units as it has. -/
theorem takeUnits_append (t u : Text) : takeUnits (unitSize t) (t ++ u) = t := by
  rw [takeUnits_eq, unitSize_eq, takeBy_append unitsOf_pos]

theorem unitOffset_append (t u : Text) : (t ++ u).unitOffset t.length = unitSize t := by
  rw [unitOffset, List.take_left' rfl]

/-- So many units behind the start of a stretch of a text, but not behind its end, is a place in the stretch. -/
theorem charOffset_min (before t after : Text) (n : Nat) :
    let whole : Text := before ++ (t ++ after)
    whole.charOffset (min (whole.unitOffset before.length + n) (whole.unitOffset (before.length + t.length))) =
      before.length + (takeUnits n t).length := by
  intro whole
  have hstop : whole.unitOffset (before.length + t.length) = unitSize before + unitSize t := by
    have h := unitOffset_append (before ++ t) after
    rwa [List.append_assoc, List.length_append, unitSize_append] at h
  rw [unitOffset_append, hstop, charOffset, Nat.add_min_add_left, takeUnits_eq, takeUnits_eq, unitSize_eq, unitSize_eq,
    takeBy_append_add, takeBy_min unitsOf_pos, List.length_append]

theorem takeUnits_length_le (n : Nat) (t : Text) : (takeUnits n t).length ≤ t.length :=
  (takeUnits_longest n t).isPrefix.length_le

theorem takeUnits_length_eq_iff {n : Nat} {t : Text} : (takeUnits n t).length = t.length ↔ unitSize t ≤ n := by
  have h := takeUnits_longest n t
  constructor
  · intro he
    have hsize := h.size_le
    rwa [h.isPrefix.eq_of_length he] at hsize
  · intro hn
    exact Nat.le_antisymm h.isPrefix.length_le (h.longest t List.prefix_rfl hn).length_le

/-! ## Bytes -/

theorem byteSize_eq : ∀ t : Text, byteSize t = sizeBy Char.utf8Size t
  | [] => rfl
  | c :: t => by rw [byteSize, sizeBy, byteSize_eq t]

theorem takeBytes_eq : ∀ (n : Nat) (t : Text), takeBytes n t = takeBy Char.utf8Size n t
  | _, [] => rfl
  | n, c :: t => by rw [takeBytes, takeBy, takeBytes_eq (n - c.utf8Size) t]

theorem takeBytes_longest (n : Nat) (t : Text) : LongestPrefix byteSize n t (takeBytes n t) := by
  rw [funext byteSize_eq, takeBytes_eq]
  exact takeBy_longest n t

theorem byteSize_append (t u : Text) : byteSize (t ++ u) = byteSize t + byteSize u := by
  simp only [byteSize_eq, sizeBy_append]

theorem length_le_byteSize (t : Text) : t.length ≤ byteSize t := by
  rw [byteSize_eq]
  exact length_le_sizeBy Char.utf8Size_pos t

/-- A few bytes more do not reach the end of the next character. -/
theorem takeBytes_append_add {k : Nat} {u : Text} (hk : ∀ c, u.head? = some c → k < c.utf8Size) :
    ∀ t : Text, takeBytes (byteSize t + k) (t ++ u) = t
  | [] => by
    cases u with
    | nil => rfl
    | cons c u =>
      have hc := hk c rfl
      rw [List.nil_append, takeBytes, if_neg (by simp only [byteSize]; omega)]
  | c :: t => by
    rw [List.cons_append, byteSize, takeBytes, if_pos (by omega), Nat.add_assoc, Nat.add_sub_cancel_left,
      takeBytes_append_add hk t]

theorem takeBytes_append (t u : Text) : takeBytes t.byteSize (t ++ u) = t :=
  takeBytes_append_add (fun c _ => c.utf8Size_pos) t

/-- An offset lies at the end of the whole characters before it, or inside the next one if there is one. -/
theorem exists_offset_eq (t : Text) (n : Nat) : ∃ after k, t = takeBytes n t ++ after ∧
    n = (takeBytes n t).byteSize + k ∧ ∀ c, after.head? = some c → k < c.utf8Size := by
  have hlongest := takeBytes_longest n t
  obtain ⟨after, hafter⟩ := hlongest.isPrefix
  refine ⟨after, n - (takeBytes n t).byteSize, hafter.symm, (Nat.add_sub_cancel' hlongest.size_le).symm, ?_⟩
  intro c hc
  obtain ⟨rest, rfl⟩ := List.head?_eq_some_iff.mp hc
  by_contra hlarge
  -- otherwise the next character would have room, too
  have hnext := hlongest.longest (takeBytes n t ++ [c]) ⟨rest, by simpa using hafter⟩ (by
    have hsize := hlongest.size_le
    simp only [byteSize_append, byteSize]
    omega)
  have hlen := hnext.length_le
  rw [List.length_append, List.length_singleton] at hlen
  omega

theorem byteSize_le_of_isPrefix {t u : Text} (h : u <+: t) : byteSize u ≤ byteSize t := by
  obtain ⟨v, rfl⟩ := h
  rw [byteSize_append]
  exact Nat.le_add_right _ _

/-- Of two initial parts of a text, the one with fewer bytes has fewer characters. -/
theorem length_le_of_byteSize_le {t u v : Text} (hu : u <+: t) (hv : v <+: t) (h : u.byteSize ≤ v.byteSize)  :
    u.length ≤ v.length := by
  rcases List.prefix_or_prefix_of_prefix hu hv with huv | ⟨w, rfl⟩
  · exact huv.length_le
  · have hw := length_le_byteSize w
    rw [byteSize_append] at h
    rw [List.length_append]
    omega

/-- A character that needs two code units takes four bytes. -/
theorem unitsOf_le_utf8Size (c : Char) : unitsOf c ≤ c.utf8Size := by
  unfold unitsOf
  split
  · exact c.utf8Size_pos
  · next h =>
    have hval : ¬ c.val.toNat < 65536 := h
    have hfour : c.utf8Size = 4 := by
      rw [Char.utf8Size_eq_four_iff, UInt32.lt_iff_toNat_lt]
      show 65535 < c.val.toNat
      omega
    omega

theorem unitSize_le_byteSize : ∀ t : Text, unitSize t ≤ byteSize t
  | [] => Nat.le_refl 0
  | c :: t => Nat.add_le_add (unitsOf_le_utf8Size c) (unitSize_le_byteSize t)

/-! ## Slices -/

theorem dropBytes?_append : ∀ t u : Text, dropBytes? t.byteSize (t ++ u) = some u
  | [], [] => rfl
  | [], c :: u => by rw [List.nil_append, byteSize, dropBytes?, if_pos rfl]
  | c :: t, u => by
    have hc := c.utf8Size_pos
    rw [List.cons_append, byteSize, dropBytes?, if_neg (by omega), if_pos (Nat.le_add_right _ _), Nat.add_sub_cancel_left,
      dropBytes?_append t u]

theorem takeBytes?_append : ∀ t u : Text, takeBytes? t.byteSize (t ++ u) = some t
  | [], [] => rfl
  | [], c :: u => by rw [List.nil_append, byteSize, takeBytes?, if_pos rfl]
  | c :: t, u => by
    have hc := c.utf8Size_pos
    rw [List.cons_append, byteSize, takeBytes?, if_neg (by omega), if_pos (Nat.le_add_right _ _), Nat.add_sub_cancel_left,
      takeBytes?_append t u, Option.map_some]

/-- The slice between two boundaries is what stands between them. -/
theorem slice?_append (t u v : Text) : (t ++ (u ++ v)).slice? t.byteSize (t ++ u).byteSize = some u := by
  rw [byteSize_append, slice?, if_pos (Nat.le_add_right _ _), dropBytes?_append, Option.bind_some, Nat.add_sub_cancel_left,
    takeBytes?_append]

theorem dropBytes?_eq_some {n : Nat} {t u : Text} (h : dropBytes? n t = some u) :
    ∃ before : Text, t = before ++ u ∧ before.byteSize = n := by
  induction t generalizing n with
  | nil =>
    rw [dropBytes?] at h
    split at h
    · next hn =>
      cases h
      exact ⟨[], rfl, hn.symm⟩
    · cases h
  | cons c t ih =>
    rw [dropBytes?] at h
    split at h
    · next hn =>
      cases h
      exact ⟨[], rfl, hn.symm⟩
    · split at h
      · obtain ⟨before, rfl, hsize⟩ := ih h
        exact ⟨c :: before, rfl, by rw [byteSize]; omega⟩
      · cases h

theorem takeBytes?_eq_some {n : Nat} {t u : Text} (h : takeBytes? n t = some u) :
    ∃ after : Text, t = u ++ after ∧ u.byteSize = n := by
  induction t generalizing n u with
  | nil =>
    rw [takeBytes?] at h
    split at h
    · next hn =>
      cases h
      exact ⟨[], rfl, hn.symm⟩
    · cases h
  | cons c t ih =>
    rw [takeBytes?] at h
    split at h
    · next hn =>
      cases h
      exact ⟨c :: t, rfl, hn.symm⟩
    · split at h
      · obtain ⟨u, hu, rfl⟩ := Option.map_eq_some_iff.mp h
        obtain ⟨after, rfl, hsize⟩ := ih hu
        exact ⟨after, rfl, by rw [byteSize]; omega⟩
      · cases h

/-- A slice stands between two boundaries. -/
theorem slice?_eq_some {start stop : Nat} {t u : Text} (h : t.slice? start stop = some u) :
    ∃ before after : Text, t = before ++ (u ++ after) ∧ before.byteSize = start ∧ (before ++ u).byteSize = stop := by
  unfold slice? at h
  split at h
  · obtain ⟨rest, hrest, htake⟩ := Option.bind_eq_some_iff.mp h
    obtain ⟨before, rfl, hstart⟩ := dropBytes?_eq_some hrest
    obtain ⟨after, rfl, hstop⟩ := takeBytes?_eq_some htake
    exact ⟨before, after, rfl, hstart, by rw [byteSize_append]; omega⟩
  · cases h

/-! ## Conversions -/

/-- A UTF-16 column goes to the last boundary between characters that is not behind it. -/
theorem isGreatest_byteColumn (line : Text) (column : Nat) :
    IsGreatest {b | ∃ u : Text, u <+: line ∧ u.unitSize ≤ column ∧ u.byteSize = b} (line.byteColumn column) := by
  have h := takeUnits_longest column line
  refine ⟨⟨_, h.isPrefix, h.size_le, rfl⟩, ?_⟩
  rintro b ⟨u, hu, hsize, rfl⟩
  exact byteSize_le_of_isPrefix (h.longest u hu hsize)

/-- A byte column goes to the code units of the characters that end before it. -/
theorem unitColumn_eq_of_longest {line u : Text} {column : Nat} (h : LongestPrefix byteSize column line u) :
    line.unitColumn column = u.unitSize := by
  rw [unitColumn, (takeBytes_longest column line).unique h]

end RubyServer.Text
