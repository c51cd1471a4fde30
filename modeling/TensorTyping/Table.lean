/-!
# Tables

A table gives each key at most one value and lists its keys in the order in which they were first
written. Writing a key again changes its value and not its place.
-/
namespace TensorTyping

/-- Keys with their values, in order of first writing. -/
structure Table (κ : Type) (α : Type) where
  entries : List (κ × α) := []
deriving Inhabited

namespace Table

variable {κ α : Type} [DecidableEq κ]

def empty : Table κ α := {}

def get? (t : Table κ α) (k : κ) : Option α := t.entries.lookup k

def contains (t : Table κ α) (k : κ) : Bool := (t.get? k).isSome

def put (k : κ) (a : α) : List (κ × α) → List (κ × α)
  | [] => [(k, a)]
  | (k', a') :: rest => if k = k' then (k', a) :: rest else (k', a') :: put k a rest

def insert (t : Table κ α) (k : κ) (a : α) : Table κ α := ⟨put k a t.entries⟩

def erase (t : Table κ α) (k : κ) : Table κ α := ⟨t.entries.filter fun e => e.1 ≠ k⟩

/-- Write every entry of `u` over `t`. -/
def merge (t u : Table κ α) : Table κ α := u.entries.foldl (fun t e => t.insert e.1 e.2) t

def keys (t : Table κ α) : List κ := t.entries.map Prod.fst

def values (t : Table κ α) : List α := t.entries.map Prod.snd

theorem mem_entries_of_get? {t : Table κ α} {k : κ} {a : α} (h : t.get? k = some a) :
    (k, a) ∈ t.entries := by
  obtain ⟨before, after, heq, -⟩ := List.lookup_eq_some_iff.1 h
  rw [heq]
  exact List.mem_append_right _ List.mem_cons_self

theorem mem_values_of_get? {t : Table κ α} {k : κ} {a : α} (h : t.get? k = some a) :
    a ∈ t.values :=
  List.mem_map_of_mem (mem_entries_of_get? h)

theorem lookup_put (k j : κ) (a : α) (es : List (κ × α)) :
    (put k a es).lookup j = if j = k then some a else es.lookup j := by
  induction es with
  | nil =>
    by_cases h : j = k
    · simp [put, h]
    · have hb : (j == k) = false := by simpa using h
      simp [put, List.lookup_cons, h, hb]
  | cons e es ih =>
    obtain ⟨k', a'⟩ := e
    by_cases hk : k = k'
    · subst hk
      by_cases hj : j = k
      · simp [put, hj]
      · have hb : (j == k) = false := by simpa using hj
        simp [put, List.lookup_cons, hj, hb]
    · by_cases hj : j = k'
      · subst hj
        have : ¬ j = k := fun h => hk h.symm
        simp [put, hk, this]
      · have hb : (j == k') = false := by simpa using hj
        simp [put, List.lookup_cons, hk, hb, ih]

theorem get?_insert (t : Table κ α) (k j : κ) (a : α) :
    (t.insert k a).get? j = if j = k then some a else t.get? j :=
  lookup_put k j a t.entries

theorem lookup_filter_ne (k j : κ) (es : List (κ × α)) :
    (es.filter fun e => e.1 ≠ k).lookup j = if j = k then none else es.lookup j := by
  induction es with
  | nil => simp
  | cons e es ih =>
    obtain ⟨k', a'⟩ := e
    by_cases hk : k' = k
    · rw [List.filter_cons_of_neg (by simpa using hk), ih]
      by_cases hj : j = k
      · rw [if_pos hj, if_pos hj]
      · have hb : (j == k') = false := by simpa [hk] using hj
        rw [if_neg hj, if_neg hj, List.lookup_cons, hb]
    · rw [List.filter_cons_of_pos (by simpa using hk), List.lookup_cons, List.lookup_cons]
      by_cases hj : j = k'
      · simp [hj, hk]
      · have hb : (j == k') = false := by simpa using hj
        rw [hb, ih]

theorem get?_erase (t : Table κ α) (k j : κ) :
    (t.erase k).get? j = if j = k then none else t.get? j :=
  lookup_filter_ne k j t.entries

theorem contains_insert (t : Table κ α) (k j : κ) (a : α) :
    (t.insert k a).contains j = (decide (j = k) || t.contains j) := by
  by_cases h : j = k <;> simp [contains, get?_insert, h]

end Table

end TensorTyping
