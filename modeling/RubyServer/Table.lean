/-!
# Tables

Finite maps that keep their keys in the order of first insertion. A key occurs once (`Table.nodup`); looking a key up
after an insertion or a removal is described by `get?_insert` and `get?_erase`.
-/

namespace RubyServer

/-- A finite map, in order of first insertion. -/
structure Table (κ : Type) (α : Type) where
  entries : List (κ × α)
  nodup : (entries.map Prod.fst).Nodup

namespace Table

variable {κ α : Type} [DecidableEq κ]

/-- The value under a key of a list of entries. -/
def find? (k : κ) : List (κ × α) → Option α
  | [] => none
  | (k', a) :: l => if k' = k then some a else find? k l

/-- Entries with the value under a key replaced, or added at the end. -/
def put (k : κ) (a : α) : List (κ × α) → List (κ × α)
  | [] => [(k, a)]
  | (k', b) :: l => if k' = k then (k, a) :: l else (k', b) :: put k a l

theorem mem_keys_put {k : κ} {a : α} {x : κ} :
    ∀ {l : List (κ × α)}, x ∈ (put k a l).map Prod.fst ↔ x = k ∨ x ∈ l.map Prod.fst
  | [] => by simp [put]
  | (k', b) :: l => by
    unfold put
    split
    · next h => subst h; simp
    · simp only [List.map_cons, List.mem_cons, mem_keys_put (l := l)]
      exact or_left_comm

theorem nodup_put {k : κ} {a : α} :
    ∀ {l : List (κ × α)}, (l.map Prod.fst).Nodup → ((put k a l).map Prod.fst).Nodup
  | [], _ => by simp [put]
  | (k', b) :: l, h => by
    rw [List.map_cons, List.nodup_cons] at h
    unfold put
    split
    · next e => subst e; rw [List.map_cons, List.nodup_cons]; exact h
    · next e =>
      rw [List.map_cons, List.nodup_cons]
      exact ⟨fun hm => (mem_keys_put.mp hm).elim (fun e' => e e') h.1, nodup_put h.2⟩

theorem find?_put (k k' : κ) (a : α) :
    ∀ l : List (κ × α), find? k' (put k a l) = if k = k' then some a else find? k' l
  | [] => by simp [put, find?]
  | (k₀, b) :: l => by
    by_cases h₀ : k₀ = k
    · subst h₀
      by_cases h : k₀ = k' <;> simp [put, find?, h]
    · by_cases h : k₀ = k'
      · subst h
        have h₁ : k ≠ k₀ := fun e => h₀ e.symm
        simp [put, find?, h₀, h₁]
      · simp [put, find?, h₀, h, find?_put k k' a l]

theorem find?_filter (k k' : κ) :
    ∀ l : List (κ × α), find? k' (l.filter fun e => e.1 ≠ k) = if k = k' then none else find? k' l
  | [] => by simp [find?]
  | (k₀, b) :: l => by
    have ih := find?_filter k k' l
    by_cases h₀ : k₀ = k
    · subst h₀
      by_cases h : k₀ = k' <;> simp_all [find?]
    · by_cases h : k₀ = k'
      · subst h
        have h₁ : k ≠ k₀ := fun e => h₀ e.symm
        simp [find?, h₀, h₁]
      · simp_all [find?]

theorem find?_of_mem {k : κ} {a : α} :
    ∀ {l : List (κ × α)}, (l.map Prod.fst).Nodup → (k, a) ∈ l → find? k l = some a
  | (k', b) :: l, h, hm => by
    rw [List.map_cons, List.nodup_cons] at h
    rcases List.mem_cons.mp hm with e | hm
    · cases e
      exact if_pos rfl
    · have hne : k' ≠ k := by
        rintro rfl
        exact h.1 (List.mem_map.mpr ⟨_, hm, rfl⟩)
      rw [find?, if_neg hne]
      exact find?_of_mem h.2 hm

/-- The table without entries. -/
def empty : Table κ α := ⟨[], List.nodup_nil⟩

instance : EmptyCollection (Table κ α) := ⟨empty⟩

instance : Inhabited (Table κ α) := ⟨empty⟩

/-- The value under a key. -/
def get? (t : Table κ α) (k : κ) : Option α := find? k t.entries

/-- Whether a key has a value. -/
def contains (t : Table κ α) (k : κ) : Bool := (t.get? k).isSome

/-- The table with a value under a key, in place of the one it had. -/
def insert (t : Table κ α) (k : κ) (a : α) : Table κ α := ⟨put k a t.entries, nodup_put t.nodup⟩

/-- The table without a key. -/
def erase (t : Table κ α) (k : κ) : Table κ α :=
  ⟨t.entries.filter fun e => e.1 ≠ k, (List.filter_sublist.map Prod.fst).nodup t.nodup⟩

/-- The keys, in order of first insertion. -/
def keys (t : Table κ α) : List κ := t.entries.map Prod.fst

/-- The number of keys. -/
def size (t : Table κ α) : Nat := t.entries.length

/-- The table with every value changed. -/
def map {β : Type} (f : κ → α → β) (t : Table κ α) : Table κ β :=
  ⟨t.entries.map fun e => (e.1, f e.1 e.2), by
    rw [List.map_map]; exact t.nodup⟩

/-- The table with only the entries that satisfy `p`. -/
def filter (p : κ → α → Bool) (t : Table κ α) : Table κ α :=
  ⟨t.entries.filter fun e => p e.1 e.2, (List.filter_sublist.map Prod.fst).nodup t.nodup⟩

@[simp] theorem get?_empty (k : κ) : (∅ : Table κ α).get? k = none := rfl

theorem get?_insert (t : Table κ α) (k k' : κ) (a : α) :
    (t.insert k a).get? k' = if k = k' then some a else t.get? k' :=
  find?_put k k' a t.entries

theorem get?_erase (t : Table κ α) (k k' : κ) :
    (t.erase k).get? k' = if k = k' then none else t.get? k' :=
  find?_filter k k' t.entries

@[simp] theorem get?_insert_self (t : Table κ α) (k : κ) (a : α) : (t.insert k a).get? k = some a := by
  rw [get?_insert, if_pos rfl]

@[simp] theorem get?_erase_self (t : Table κ α) (k : κ) : (t.erase k).get? k = none := by
  rw [get?_erase, if_pos rfl]

theorem find?_eq_none {k : κ} : ∀ {l : List (κ × α)}, k ∉ l.map Prod.fst → find? k l = none
  | [], _ => rfl
  | (k', a) :: l, h => by
    rw [List.map_cons, List.mem_cons, not_or] at h
    rw [find?, if_neg fun e => h.1 e.symm]
    exact find?_eq_none h.2

theorem get?_eq_none {t : Table κ α} {k : κ} (h : k ∉ t.keys) : t.get? k = none := find?_eq_none h

theorem get?_of_mem {t : Table κ α} {k : κ} {a : α} (h : (k, a) ∈ t.entries) : t.get? k = some a :=
  find?_of_mem t.nodup h

end Table

end RubyServer
