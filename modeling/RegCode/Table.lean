/-! Finite maps as lists of entries, one entry a key. -/
namespace RegCode

structure Table (κ ν : Type) where
  entries : List (κ × ν)
  deriving Repr, Inhabited

namespace Table

variable {κ ν : Type} [BEq κ]

def empty : Table κ ν := ⟨[]⟩

def get? (t : Table κ ν) (k : κ) : Option ν := t.entries.lookup k

def getD (t : Table κ ν) (k : κ) (d : ν) : ν := (t.get? k).getD d

def contains (t : Table κ ν) (k : κ) : Bool := (t.get? k).isSome

def setEntry (k : κ) (v : ν) : List (κ × ν) → List (κ × ν)
  | [] => [(k, v)]
  | (j, w) :: rest => if k == j then (k, v) :: rest else (j, w) :: setEntry k v rest

def insert (t : Table κ ν) (k : κ) (v : ν) : Table κ ν := ⟨setEntry k v t.entries⟩

def erase (t : Table κ ν) (k : κ) : Table κ ν := ⟨t.entries.filter fun (j, _) => !(k == j)⟩

def keys (t : Table κ ν) : List κ := t.entries.map Prod.fst

@[simp] theorem get?_empty (k : κ) : (empty : Table κ ν).get? k = none := rfl

theorem lookup_setEntry [LawfulBEq κ] (k j : κ) (v : ν) (l : List (κ × ν)) :
    (setEntry k v l).lookup j = if j == k then some v else l.lookup j := by
  induction l with
  | nil => simp only [setEntry, List.lookup_cons, List.lookup_nil]; split <;> simp_all
  | cons e rest ih =>
    obtain ⟨i, w⟩ := e
    simp only [setEntry]
    by_cases h : k = i
    · subst h
      by_cases hj : j = k
      · simp [hj]
      · have : (j == k) = false := by simpa using hj
        simp [List.lookup_cons, this]
    · have hk : (k == i) = false := by simpa using h
      rw [hk, if_neg (by simp), List.lookup_cons, List.lookup_cons]
      by_cases hj : j = i
      · subst hj
        have : (j == k) = false := by simpa using fun e => h e.symm
        simp [this]
      · have : (j == i) = false := by simpa using hj
        simp [this, ih]

@[simp] theorem get?_insert [LawfulBEq κ] (t : Table κ ν) (k j : κ) (v : ν) :
    (t.insert k v).get? j = if j == k then some v else t.get? j :=
  lookup_setEntry k j v t.entries

@[simp] theorem get?_erase [LawfulBEq κ] (t : Table κ ν) (k j : κ) :
    (t.erase k).get? j = if j == k then none else t.get? j := by
  simp only [get?, erase]
  induction t.entries with
  | nil => simp
  | cons e rest ih =>
    obtain ⟨i, w⟩ := e
    by_cases h : k = i
    · subst h
      rw [List.filter_cons_of_neg (by simp), ih]
      by_cases hj : j = k
      · simp [hj]
      · have : (j == k) = false := by simpa using hj
        simp [List.lookup_cons, this]
    · have hk : (k == i) = false := by simpa using h
      rw [List.filter_cons_of_pos (by simpa using hk), List.lookup_cons, List.lookup_cons]
      by_cases hj : j = i
      · subst hj
        have : (j == k) = false := by simpa using fun e => h e.symm
        simp [this]
      · have : (j == i) = false := by simpa using hj
        simp [this, ih]

end Table

end RegCode
