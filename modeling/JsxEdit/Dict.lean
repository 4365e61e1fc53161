/-
Dictionaries with text keys that keep the order in which their keys were first put in.
-/
set_option autoImplicit false

namespace JsxEdit

/-- Entries in order; the functions below keep the keys distinct. -/
abbrev Dict (α : Type) := List (String × α)

namespace Dict

variable {α β : Type}

/-- The value of the key. -/
def get? (d : Dict α) (key : String) : Option α := (d.find? (·.1 == key)).map (·.2)

/-- Whether the key has a value. -/
def has (d : Dict α) (key : String) : Bool := d.any (·.1 == key)

/-- Gives the key a value: a known key keeps its place, a new one goes to the end. -/
def put (key : String) (value : α) : Dict α → Dict α
  | [] => [(key, value)]
  | (k, v) :: rest => if k == key then (k, value) :: rest else (k, v) :: put key value rest

/-- The entries put in one after the other. -/
def ofPairs (pairs : List (String × α)) : Dict α := pairs.foldl (fun d (k, v) => d.put k v) []

/-- The dictionary with its keys renamed; of the values under one new name the last counts. -/
def rename (f : String → String) (d : Dict α) : Dict α := ofPairs (d.map fun (k, v) => (f k, v))

theorem get?_put_self (d : Dict α) (key : String) (value : α) :
    (d.put key value).get? key = some value := by
  induction d with
  | nil => simp [put, get?]
  | cons e rest ih =>
    obtain ⟨k, v⟩ := e
    by_cases h : k = key
    · simp [put, get?, h]
    · simp only [get?] at ih
      simp [put, get?, h, ih]

theorem get?_put_of_ne (d : Dict α) {key other : String} (value : α) (h : other ≠ key) :
    (d.put key value).get? other = d.get? other := by
  induction d with
  | nil => simp [put, get?, Ne.symm h]
  | cons e rest ih =>
    obtain ⟨k, v⟩ := e
    simp only [get?] at ih
    by_cases hk : k = key
    · simp [put, get?, hk, Ne.symm h]
    · by_cases ho : k = other
      · simp [put, get?, ho, h]
      · simp [put, get?, hk, ho, ih]

end Dict
end JsxEdit
