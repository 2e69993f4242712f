import Mathlib.Data.List.Nodup
import SqlDispatch.Session

set_option autoImplicit false

/-!
Sessions by what they answer. The entries of a session are its answers in the order of their names,
so sessions that answer alike are one session (`ext_get?`). Of entries stored one after another the
last one of a name is answered.
-/

namespace SqlDispatch

open Text

theorem Entries.lookup_eq_some_iff {entries : List Entry} (h : entries.Pairwise (·.1 < ·.1))
    {name : String} {value : OptionValue} :
    entries.lookup name = some value ↔ (name, value) ∈ entries := by
  induction entries with
  | nil => simp
  | cons first rest ih =>
    obtain ⟨hf, hr⟩ := List.pairwise_cons.1 h
    rw [lookup_cons, List.mem_cons]
    split
    · rename_i hn
      subst hn
      -- the rest holds greater names only
      have hm : (first.1, value) ∉ rest := fun hm =>
        String.lt_irrefl first.1 (hf (first.1, value) hm)
      simp [hm, Prod.ext_iff, eq_comm]
    · rename_i hn
      simp [ih hr, Prod.ext_iff, hn]

namespace Session

theorem get?_lower (session : Session) (name : String) :
    session.get? (lower name) = session.get? name := by
  rw [get?, get?, lower_lower]

theorem get?_eq_some_iff {session : Session} {name : String} {value : OptionValue} :
    session.get? name = some value ↔ (lower name, value) ∈ session.entries :=
  Entries.lookup_eq_some_iff session.ordered

theorem mem_entries_iff {session : Session} {entry : Entry} :
    entry ∈ session.entries ↔ lower entry.1 = entry.1 ∧ session.get? entry.1 = some entry.2 := by
  rw [get?_eq_some_iff]
  constructor
  · intro h
    have hs := session.small entry h
    exact ⟨hs, hs.symm ▸ h⟩
  · rintro ⟨hs, hm⟩
    rwa [hs] at hm

theorem get?_eq_none_iff {session : Session} {name : String} :
    session.get? name = none ↔ ∀ entry ∈ session.entries, entry.1 ≠ lower name := by
  rw [Option.eq_none_iff_forall_ne_some]
  simp only [Ne, get?_eq_some_iff]
  constructor
  · rintro h ⟨_, value⟩ hm rfl
    exact h value hm
  · exact fun h value hm => h _ hm rfl

theorem nodup_names (session : Session) : (session.entries.map Prod.fst).Nodup :=
  List.pairwise_map.2 <|
    session.ordered.imp fun {x y} hl (he : x.1 = y.1) => String.lt_irrefl y.1 (he ▸ hl)

theorem ext_get? {a b : Session} (h : ∀ name, a.get? name = b.get? name) : a = b := by
  have hm (entry : Entry) : entry ∈ a.entries ↔ entry ∈ b.entries := by
    rw [mem_entries_iff, mem_entries_iff, h]
  apply ext_entries
  exact ((List.perm_ext_iff_of_nodup a.nodup_names.of_map b.nodup_names.of_map).2 hm).eq_of_pairwise
    (fun x y _ _ hx hy => absurd hy (String.lt_asymm hx)) a.ordered b.ordered

theorem get?_putAll_of_forall_ne {entries : List Entry} {name : String}
    (h : ∀ entry ∈ entries, lower entry.1 ≠ lower name) (session : Session) :
    (session.putAll entries).get? name = session.get? name := by
  induction entries generalizing session with
  | nil => rfl
  | cons first rest ih =>
    obtain ⟨hf, hr⟩ := List.forall_mem_cons.1 h
    change ((session.put first.1 first.2).putAll rest).get? name = _
    rw [ih hr, get?_put, if_neg (Ne.symm hf)]

/-- Nothing stored behind the last entry of a name changes what the name has. -/
theorem get?_putAll_append {before after : List Entry} {entry : Entry}
    (h : ∀ later ∈ after, lower later.1 ≠ lower entry.1) (session : Session) :
    (session.putAll (before ++ entry :: after)).get? entry.1 = some entry.2 := by
  have hp : session.putAll (before ++ entry :: after) =
      ((session.putAll before).put entry.1 entry.2).putAll after := List.foldl_append ..
  rw [hp, get?_putAll_of_forall_ne h, get?_put, if_pos rfl]

theorem get?_putAll_of_mem {entries : List Entry} (hd : (entries.map (lower ·.1)).Nodup)
    {entry : Entry} (h : entry ∈ entries) (session : Session) :
    (session.putAll entries).get? entry.1 = some entry.2 := by
  obtain ⟨before, after, rfl⟩ := List.append_of_mem h
  refine get?_putAll_append (fun later hm hl => ?_) session
  rw [List.map_append, List.map_cons] at hd
  exact (List.nodup_cons.1 hd.of_append_right).1 (hl ▸ List.mem_map_of_mem hm)

end Session

end SqlDispatch
