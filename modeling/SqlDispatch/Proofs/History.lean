import Mathlib.Data.List.Dedup
import Mathlib.Data.List.Forall2
import SqlDispatch.Proofs.Session
import SqlDispatch.Text.Utf8

set_option autoImplicit false

/-!
What is left of the calls that made a session. Of the calls with one name the last one counts
(`get?_putAll_eq_some_iff`), where a name is the same as another if they differ in the case of
letters from A to Z alone (`lower_eq_lower_iff`). The names are listed in the order of their bytes,
which is that of their code points (`encode_lt_encode`).
-/

namespace SqlDispatch

open Text

namespace Text

def IsCapitalOf (capital small : Char) : Prop :=
  ∃ i < 26, capital.toNat = 'A'.toNat + i ∧ small.toNat = 'a'.toNat + i

def SameLetter (c d : Char) : Prop := c = d ∨ IsCapitalOf c d ∨ IsCapitalOf d c

/-- The texts are equal but for the case of letters from A to Z. -/
def SameName (a b : String) : Prop := List.Forall₂ SameLetter a.toList b.toList

theorem toLower_eq_toLower_iff {c d : Char} : c.toLower = d.toLower ↔ SameLetter c d := by
  rw [← Char.toNat_inj, toNat_toLower, toNat_toLower, SameLetter, ← Char.toNat_inj]
  simp only [IsCapitalOf, Char.reduceToNat]
  constructor
  · intro h
    by_cases hc : 65 ≤ c.toNat ∧ c.toNat ≤ 90 <;> by_cases hd : 65 ≤ d.toNat ∧ d.toNat ≤ 90
    · exact .inl (by simpa [hc, hd] using h)
    · rw [if_pos hc, if_neg hd] at h
      exact .inr (.inl ⟨c.toNat - 65, by omega⟩)
    · rw [if_neg hc, if_pos hd] at h
      exact .inr (.inr ⟨d.toNat - 65, by omega⟩)
    · exact .inl (by simpa [hc, hd] using h)
  · rintro (h | ⟨i, hi, hc, hd⟩ | ⟨i, hi, hd, hc⟩)
    · rw [h]
    · rw [if_pos (by omega), if_neg (by omega)]
      omega
    · rw [if_neg (by omega), if_pos (by omega)]
      omega

theorem lower_eq_lower_iff {a b : String} : lower a = lower b ↔ SameName a b := by
  rw [← String.toList_inj, toList_lower, toList_lower, ← List.forall₂_eq_eq_eq,
    List.forall₂_map_left_iff, List.forall₂_map_right_iff]
  simp only [toLower_eq_toLower_iff, SameName]

instance : DecidableRel SameName := fun _ _ => decidable_of_iff _ lower_eq_lower_iff

example : SameName "Streaming.É" "sTREAMING.É" ∧ ¬ SameName "É" "é" := by
  decide +kernel

theorem utf8EncodeChar_append_lt {c d : Char} (h : c < d) (rest other : List UInt8) :
    String.utf8EncodeChar c ++ rest < String.utf8EncodeChar d ++ other := by
  have hd : d.val.toNat < 0x110000 := by
    rcases d.valid with h | h
    · exact Nat.lt_trans h (by decide)
    · exact h.2
  have hlt : c.val.toNat < d.val.toNat := h
  simp only [String.utf8EncodeChar]
  generalize c.val.toNat = v at hlt ⊢
  generalize d.val.toNat = w at hlt hd ⊢
  have h₁ : v / 64 ≤ w / 64 := Nat.div_le_div_right (Nat.le_of_lt hlt)
  have h₂ : v / 4096 ≤ w / 4096 := Nat.div_le_div_right (Nat.le_of_lt hlt)
  have h₃ : v / 262144 ≤ w / 262144 := Nat.div_le_div_right (Nat.le_of_lt hlt)
  repeat' split
  all_goals simp (disch := omega) only [List.cons_append, List.nil_append, List.cons_lt_cons_iff,
    UInt8.lt_iff_toNat_lt, ← UInt8.toNat_inj, UInt8.toNat_ofNat', Nat.reducePow, Nat.mod_eq_of_lt]
  all_goals omega

theorem encode_lt_encode {a b : String} (h : a < b) : encode a < encode b := by
  have hlt : a.toList < b.toList := h
  unfold encode
  generalize a.toList = cs at hlt
  generalize b.toList = ds at hlt
  induction cs generalizing ds with
  | nil =>
    cases ds with
    | nil => exact absurd hlt (List.lt_irrefl [])
    | cons d ds =>
      obtain ⟨first, rest, hd⟩ := List.exists_cons_of_ne_nil (@String.utf8EncodeChar_ne_nil d)
      rw [List.flatMap_nil, List.flatMap_cons, hd]
      exact List.nil_lt_cons ..
  | cons c cs ih =>
    cases ds with
    | nil => exact absurd hlt (List.not_lt_nil _)
    | cons d ds =>
      rw [List.flatMap_cons, List.flatMap_cons]
      rcases List.cons_lt_cons_iff.1 hlt with h | ⟨rfl, h⟩
      · exact utf8EncodeChar_append_lt h _ _
      · exact List.append_left_lt (ih _ h)

end Text

/-- Of the calls with the name the last one stores the value. -/
def LastSet (calls : List Entry) (name : String) (value : OptionValue) : Prop :=
  ∃ before call after, calls = before ++ call :: after ∧ SameName call.1 name ∧ call.2 = value ∧
    ∀ later ∈ after, ¬ SameName later.1 name

theorem exists_lastSet {calls : List Entry} {name : String}
    (h : ∃ call ∈ calls, SameName call.1 name) : ∃ value, LastSet calls name value := by
  induction calls with
  | nil => simp at h
  | cons first rest ih =>
    by_cases hr : ∃ call ∈ rest, SameName call.1 name
    · obtain ⟨value, before, call, after, rfl, hc⟩ := ih hr
      exact ⟨value, first :: before, call, after, rfl, hc⟩
    · have hn : ∀ later ∈ rest, ¬ SameName later.1 name := fun later hm hs => hr ⟨later, hm, hs⟩
      obtain ⟨call, hm, hs⟩ := h
      rcases List.mem_cons.1 hm with rfl | hm
      · exact ⟨call.2, [], call, rest, rfl, hs, rfl, hn⟩
      · exact absurd hs (hn call hm)

namespace Session

variable {calls : List Entry} {name : String} {value : OptionValue}

theorem get?_putAll_of_lastSet (h : LastSet calls name value) (session : Session) :
    (session.putAll calls).get? name = some value := by
  obtain ⟨before, call, after, rfl, hs, rfl, hn⟩ := h
  have hs := lower_eq_lower_iff.2 hs
  rw [← get?_lower, ← hs, get?_lower]
  refine get?_putAll_append (fun later hm hl => hn later hm ?_) session
  exact lower_eq_lower_iff.1 (hl.trans hs)

theorem get?_putAll_eq_none_iff :
    (empty.putAll calls).get? name = none ↔ ∀ call ∈ calls, ¬ SameName call.1 name := by
  constructor
  · intro h call hm hs
    obtain ⟨value, hv⟩ := exists_lastSet ⟨call, hm, hs⟩
    rw [get?_putAll_of_lastSet hv] at h
    cases h
  · intro h
    have hn : ∀ call ∈ calls, lower call.1 ≠ lower name :=
      fun call hm hl => h call hm (lower_eq_lower_iff.1 hl)
    rw [get?_putAll_of_forall_ne hn, get?_empty]

theorem get?_putAll_eq_some_iff :
    (empty.putAll calls).get? name = some value ↔ LastSet calls name value := by
  constructor
  · intro h
    by_cases hc : ∃ call ∈ calls, SameName call.1 name
    · obtain ⟨last, hl⟩ := exists_lastSet hc
      rw [get?_putAll_of_lastSet hl] at h
      exact Option.some.inj h ▸ hl
    · rw [get?_putAll_eq_none_iff.2 fun call hm hs => hc ⟨call, hm, hs⟩] at h
      cases h
  · exact fun h => get?_putAll_of_lastSet h empty

theorem mem_names_putAll_iff :
    name ∈ (empty.putAll calls).entries.map Prod.fst ↔ name ∈ calls.map (lower ·.1) := by
  rw [List.mem_map, List.mem_map]
  constructor
  · rintro ⟨entry, hm, rfl⟩
    obtain ⟨hl, hg⟩ := mem_entries_iff.1 hm
    obtain ⟨_, call, _, rfl, hs, _⟩ := get?_putAll_eq_some_iff.1 hg
    exact ⟨call, by simp, (lower_eq_lower_iff.2 hs).trans hl⟩
  · rintro ⟨call, hm, rfl⟩
    obtain ⟨value, hv⟩ := exists_lastSet ⟨call, hm, lower_eq_lower_iff.1 rfl⟩
    exact ⟨_, get?_eq_some_iff.1 (get?_putAll_eq_some_iff.2 hv), rfl⟩

/-- A session is an ordered map from names in any case to what was stored last. -/
theorem putAll_is_ordered_map (calls : List Entry) :
    let session := empty.putAll calls
    (∀ name value, session.get? name = some value ↔ LastSet calls name value) ∧
    (∀ name, session.get? name = none ↔ ∀ call ∈ calls, ¬ SameName call.1 name) ∧
    (∀ name value, (name, value) ∈ session.entries ↔
      lower name = name ∧ LastSet calls name value) ∧
    (session.entries.map Prod.fst).Perm (calls.map (lower ·.1)).dedup ∧
    (session.entries.map fun entry => encode entry.1).Pairwise (· < ·) ∧
    session.size = (calls.map (lower ·.1)).dedup.length ∧
    ∀ others, empty.putAll others = session ↔
      ∀ name value, LastSet others name value ↔ LastSet calls name value := by
  intro session
  have hperm : (session.entries.map Prod.fst).Perm (calls.map (lower ·.1)).dedup :=
    (List.perm_ext_iff_of_nodup session.nodup_names (List.nodup_dedup _)).2 fun name => by
      rw [mem_names_putAll_iff, List.mem_dedup]
  refine ⟨fun name value => get?_putAll_eq_some_iff, fun name => get?_putAll_eq_none_iff,
    fun name value => ?_, hperm, ?_, ?_, fun others => ?_⟩
  · rw [mem_entries_iff, get?_putAll_eq_some_iff]
  · exact List.pairwise_map.2 (session.ordered.imp encode_lt_encode)
  · rw [← hperm.length_eq, List.length_map, size]
  · simp only [← get?_putAll_eq_some_iff]
    constructor
    · intro h name value
      rw [h]
    · intro h
      exact ext_get? fun name => Option.ext fun value => h name value

end Session

end SqlDispatch
