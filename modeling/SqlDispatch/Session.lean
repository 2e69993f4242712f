import SqlDispatch.Text.Fold
import SqlDispatch.Text.Numeral

set_option autoImplicit false

/-!
Sessions. A session keeps the options of one connection: a name has at most one value, names that
differ in case alone are one name, and the names are listed in small letters and in the order of
their code points. `get?_put` says what storing does to every name.
-/

namespace SqlDispatch

open Text

inductive OptionValue where
  | boolean (value : Bool)
  | integer (value : Int)
  | text (value : String)
  deriving DecidableEq, Repr

namespace OptionValue

def boolean? : OptionValue → Option Bool
  | .boolean value => some value
  | _ => none

def integer? : OptionValue → Option Int
  | .integer value => some value
  | _ => none

def display : OptionValue → String
  | .boolean true => "ON"
  | .boolean false => "OFF"
  | .integer value => decimal value
  | .text value => value

end OptionValue

abbrev Entry := String × OptionValue

namespace Entries

/-- Puts a value where its name belongs, in place of the value that the name had. -/
def insert (name : String) (value : OptionValue) : List Entry → List Entry
  | [] => [(name, value)]
  | entry :: rest =>
    if name < entry.1 then (name, value) :: entry :: rest
    else if name = entry.1 then (name, value) :: rest
    else entry :: insert name value rest

theorem eq_or_mem_of_mem_insert {name : String} {value : OptionValue} {entries : List Entry}
    {entry : Entry} (h : entry ∈ insert name value entries) :
    entry = (name, value) ∨ entry ∈ entries := by
  induction entries with
  | nil => simpa [insert] using h
  | cons first rest ih =>
    simp only [insert] at h
    split at h
    · simpa using h
    · split at h
      · rcases List.mem_cons.1 h with h | h
        · exact .inl h
        · exact .inr (by simp [h])
      · rcases List.mem_cons.1 h with h | h
        · exact .inr (by simp [h])
        · exact (ih h).imp id fun h => by simp [h]

theorem pairwise_insert {name : String} {value : OptionValue} {entries : List Entry}
    (h : entries.Pairwise (·.1 < ·.1)) : (insert name value entries).Pairwise (·.1 < ·.1) := by
  induction entries with
  | nil => simp [insert]
  | cons first rest ih =>
    obtain ⟨hf, hr⟩ := List.pairwise_cons.1 h
    simp only [insert]
    split
    · rename_i hlt
      refine List.pairwise_cons.2 ⟨fun entry he => ?_, h⟩
      rcases List.mem_cons.1 he with rfl | he
      · exact hlt
      · exact String.lt_trans hlt (hf entry he)
    · rename_i hlt
      split
      · rename_i heq
        exact List.pairwise_cons.2 ⟨fun entry he => heq ▸ hf entry he, hr⟩
      · rename_i hne
        refine List.pairwise_cons.2 ⟨fun entry he => ?_, ih hr⟩
        rcases eq_or_mem_of_mem_insert he with rfl | he
        · rcases Std.lt_trichotomy first.1 name with g | g | g
          · exact g
          · exact absurd g.symm hne
          · exact absurd g hlt
        · exact hf entry he

theorem lookup_cons (entry : Entry) (rest : List Entry) (name : String) :
    (entry :: rest).lookup name = if name = entry.1 then some entry.2 else rest.lookup name := by
  rw [List.lookup_cons]
  by_cases h : name = entry.1
  · simp [h]
  · simp [h, beq_eq_false_iff_ne.2 h]

theorem lookup_insert (name other : String) (value : OptionValue) (entries : List Entry) :
    (insert name value entries).lookup other =
      if other = name then some value else entries.lookup other := by
  induction entries with
  | nil => simp [insert, lookup_cons]
  | cons first rest ih =>
    simp only [insert]
    split
    · simp [lookup_cons]
    · split
      · rename_i heq
        by_cases h : other = name <;> simp_all [lookup_cons]
      · rename_i hne
        by_cases h : other = first.1
        · simp [lookup_cons, h, Ne.symm hne]
        · simp [lookup_cons, h, ih]

end Entries

structure Session where
  entries : List Entry
  small : ∀ entry ∈ entries, lower entry.1 = entry.1
  ordered : entries.Pairwise (·.1 < ·.1)
  deriving DecidableEq

namespace Session

def empty : Session := ⟨[], by simp, .nil⟩

def put (session : Session) (name : String) (value : OptionValue) : Session where
  entries := Entries.insert (lower name) value session.entries
  small := fun entry h => by
    rcases Entries.eq_or_mem_of_mem_insert h with rfl | h
    · exact lower_lower name
    · exact session.small entry h
  ordered := Entries.pairwise_insert session.ordered

def putAll (session : Session) (entries : List Entry) : Session :=
  entries.foldl (fun session entry => session.put entry.1 entry.2) session

def get? (session : Session) (name : String) : Option OptionValue :=
  session.entries.lookup (lower name)

def size (session : Session) : Nat := session.entries.length

def isEmpty (session : Session) : Bool := session.entries.isEmpty

theorem ext_entries {a b : Session} (h : a.entries = b.entries) : a = b := by
  cases a
  cases b
  simp_all

theorem get?_put (session : Session) (name other : String) (value : OptionValue) :
    (session.put name value).get? other =
      if lower other = lower name then some value else session.get? other :=
  Entries.lookup_insert (lower name) (lower other) value session.entries

theorem get?_empty (name : String) : empty.get? name = none := rfl

end Session

end SqlDispatch
