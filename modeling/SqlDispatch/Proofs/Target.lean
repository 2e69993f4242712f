import Mathlib.Data.List.DropRight
import SqlDispatch.Target

set_option autoImplicit false

/-!
The text of targets. A target reads back from its text if it is well-formed, and whatever reads as a
target reads as a well-formed one; so the text of a target that was read is read as that target.
-/

namespace SqlDispatch

open Text

namespace Text

theorem strip_eq_rdropWhile (cs : List Char) :
    strip cs = (cs.dropWhile isBlank).rdropWhile isBlank := rfl

theorem any_head_strip (cs : List Char) : (strip cs).head?.any isBlank = false := by
  cases hs : strip cs with
  | nil => rfl
  | cons c rest =>
    -- what is dropped at the end leaves the first character where it is
    obtain ⟨back, hb⟩ := List.rdropWhile_prefix isBlank (cs.dropWhile isBlank)
    have h := List.head?_dropWhile_not isBlank cs
    rw [← hb, ← strip_eq_rdropWhile, hs] at h
    exact h

theorem any_getLast_strip (cs : List Char) : (strip cs).getLast?.any isBlank = false := by
  by_cases hn : strip cs = []
  · simp [hn]
  · have h := List.rdropWhile_last_not isBlank (cs.dropWhile isBlank) hn
    rw [List.getLast?_eq_some_getLast hn]
    exact Bool.eq_false_iff.2 h

theorem strip_eq_self_iff {cs : List Char} :
    strip cs = cs ↔ cs.head?.any isBlank = false ∧ cs.getLast?.any isBlank = false := by
  constructor
  · intro h
    have hh := any_head_strip cs
    have hl := any_getLast_strip cs
    rw [h] at hh hl
    exact ⟨hh, hl⟩
  · intro h
    obtain ⟨hh, hl⟩ := h
    cases cs with
    | nil => rfl
    | cons c cs =>
      have hc : isBlank c = false := hh
      rw [strip_eq_rdropWhile, List.dropWhile_cons_of_neg (by simp [hc]),
        List.rdropWhile_eq_self_iff]
      intro hn
      rw [List.getLast?_eq_some_getLast hn] at hl
      simpa using hl

theorem strip_eq_self_of_forall {cs : List Char} (h : ∀ c ∈ cs, isBlank c = false) :
    strip cs = cs := by
  refine strip_eq_self_iff.2 ⟨?_, ?_⟩
  · rw [Option.any_eq_false]
    exact fun c hc => h c (List.mem_of_mem_head? hc)
  · rw [Option.any_eq_false]
    exact fun c hc => h c (List.mem_of_mem_getLast? hc)

/-- Only the outer ends of the parts matter, since the mark between them is not blank. -/
theorem strip_append_cons {front back : List Char} {c : Char} (hf : strip front = front)
    (hc : isBlank c = false) (hb : strip back = back) :
    strip (front ++ c :: back) = front ++ c :: back := by
  rw [strip_eq_self_iff] at hf hb ⊢
  constructor
  · cases front with
    | nil => simpa using hc
    | cons d front => simpa using hf.1
  · rw [List.getLast?_append, List.getLast?_cons]
    cases back with
    | nil => simpa using hc
    | cons d back => simpa [List.getLast?_cons] using hb.2

theorem strip_blank_around {front back : List Char} (hf : ∀ c ∈ front, isBlank c = true)
    (hb : ∀ c ∈ back, isBlank c = true) (cs : List Char) :
    strip (front ++ (cs ++ back)) = strip cs := by
  unfold strip
  rw [List.dropWhile_append_of_pos hf, List.dropWhile_append]
  cases hd : cs.dropWhile isBlank with
  | nil => simp [List.dropWhile_eq_nil_iff.2 hb]
  | cons c rest =>
    have hr : ∀ d ∈ back.reverse, isBlank d = true := fun d hd => hb d (List.mem_reverse.1 hd)
    simp only [List.isEmpty_cons, Bool.false_eq_true, if_false, List.reverse_append]
    rw [List.dropWhile_append_of_pos hr]

theorem mem_of_mem_strip {c : Char} {cs : List Char} (h : c ∈ strip cs) : c ∈ cs :=
  (List.dropWhile_sublist isBlank).subset <|
    (List.rdropWhile_prefix isBlank (cs.dropWhile isBlank)).subset h

theorem of_mem_intercalate {α : Type} {mark : List α} {parts : List (List α)} {c : α}
    (h : c ∈ mark.intercalate parts) : c ∈ mark ∨ ∃ part ∈ parts, c ∈ part := by
  induction parts with
  | nil => simp at h
  | cons part parts ih =>
    cases parts with
    | nil => exact .inr ⟨part, by simp, by simpa using h⟩
    | cons next parts =>
      rw [List.intercalate_cons_cons, List.append_assoc] at h
      rcases List.mem_append.1 h with h | h
      · exact .inr ⟨part, by simp, h⟩
      · rcases List.mem_append.1 h with h | h
        · exact .inl h
        · exact (ih h).imp id fun ⟨other, ho, hc⟩ => ⟨other, List.mem_cons_of_mem part ho, hc⟩

end Text

namespace NodeId

theorem map_length_grouped (sizes : List Nat) {digits : List (Fin 16)}
    (h : sizes.foldr (· + ·) 0 = digits.length) :
    (grouped sizes digits).map List.length = sizes := by
  induction sizes generalizing digits with
  | nil => rfl
  | cons n sizes ih =>
    rw [List.foldr_cons] at h
    rw [grouped, List.map_cons, ih (by rw [List.length_drop]; omega), List.length_map,
      List.length_take, Nat.min_eq_left (by omega)]

theorem flatten_grouped (sizes : List Nat) {digits : List (Fin 16)}
    (h : sizes.foldr (· + ·) 0 = digits.length) :
    (grouped sizes digits).flatten = digits.map hexDigit := by
  induction sizes generalizing digits with
  | nil =>
    obtain rfl := List.length_eq_zero_iff.1 h.symm
    rfl
  | cons n sizes ih =>
    rw [List.foldr_cons] at h
    rw [grouped, List.flatten_cons, ih (by rw [List.length_drop]; omega), ← List.map_append,
      List.take_append_drop]

theorem mapM_hexValue (digits : List (Fin 16)) :
    (digits.map hexDigit).mapM hexValue = some digits := by
  induction digits with
  | nil => rfl
  | cons n digits ih => simp [hexValue_hexDigit, ih]

theorem mapM_hexValue_of_hyphen {cs : List Char} (h : '-' ∈ cs) : cs.mapM hexValue = none := by
  have hh : hexValue '-' = none := by decide +kernel
  induction cs with
  | nil => simp at h
  | cons c cs ih =>
    rcases List.mem_cons.1 h with rfl | h
    · simp [hh]
    · simp [ih h]

theorem readPlain_digits (id : NodeId) : readPlain (id.digits.map hexDigit) = some id := by
  rw [readPlain, mapM_hexValue, Option.bind_some, dif_pos id.length_digits]

theorem hexDigit_ne : ∀ n, hexDigit n ≠ '-' ∧ hexDigit n ≠ ',' ∧ isBlank (hexDigit n) = false := by
  decide +kernel

theorem forall_mem_grouped {p : Char → Prop} (hp : ∀ n, p (hexDigit n)) (sizes : List Nat)
    (digits : List (Fin 16)) : ∀ group ∈ grouped sizes digits, ∀ c ∈ group, p c := by
  induction sizes generalizing digits with
  | nil => simp [grouped]
  | cons n sizes ih =>
    simp only [grouped, List.forall_mem_cons, List.forall_mem_map]
    exact ⟨fun d _ => hp d, ih _⟩

theorem readGrouped_display (id : NodeId) : readGrouped id.display = some id := by
  have hn : ∀ group ∈ grouped groups id.digits, '-' ∉ group := fun group hg hc =>
    forall_mem_grouped (p := (· ≠ '-')) (fun n => (hexDigit_ne n).1) groups id.digits group hg _ hc
      rfl
  have hs : id.display.splitOn '-' = grouped groups id.digits :=
    List.splitOn_intercalate '-' hn (by simp [groups, grouped])
  have hl : groups.foldr (· + ·) 0 = id.digits.length := id.length_digits.symm
  simp only [readGrouped, hs, map_length_grouped groups hl, flatten_grouped groups hl, if_true,
    readPlain_digits]

theorem read_display (id : NodeId) : read id.display = some id := by
  have hh : '-' ∈ id.display := by
    simp [display, groups, grouped, List.intercalate_cons_cons]
  have hp : readPlain id.display = none := by rw [readPlain, mapM_hexValue_of_hyphen hh]; rfl
  rw [read, hp, readGrouped_display]
  rfl

theorem of_mem_display (id : NodeId) : ∀ c ∈ id.display, c ≠ ',' ∧ isBlank c = false := by
  intro c hc
  rcases of_mem_intercalate hc with hm | ⟨group, hg, hm⟩
  · rw [List.mem_singleton.1 hm]
    decide
  · exact forall_mem_grouped (p := fun c => c ≠ ',' ∧ isBlank c = false)
      (fun n => (hexDigit_ne n).2) groups id.digits group hg c hm

theorem display_ne_nil (id : NodeId) : id.display ≠ [] := by
  simp [display, groups, grouped, List.intercalate_cons_cons]

end NodeId

namespace Target

variable {text : String} {target : Target}

theorem bare_iff_strip : Bare text ↔ strip text.toList = text.toList := strip_eq_self_iff.symm

theorem bare_strip (cs : List Char) : Bare (.ofList (strip cs)) := by
  rw [Bare, String.toList_ofList]
  exact ⟨any_head_strip cs, any_getLast_strip cs⟩

theorem wellFormed_of_readNodes {cs : List Char} (h : readNodes cs = .ok target) :
    target.WellFormed := by
  cases hm : (((cs.splitOn ',').map strip).filter (· ≠ [])).mapM readNode with
  | error fault =>
    simp only [readNodes, hm] at h
    cases h
  | ok ids =>
    simp only [readNodes, hm] at h
    cases ids with
    | nil => cases h
    | cons id ids =>
      cases h
      simp [WellFormed]

theorem wellFormed_of_readAttribute {cs : List Char} (h : readAttribute cs = .ok target) :
    target.WellFormed := by
  unfold readAttribute at h
  split at h
  · cases h
  · rename_i name value hs
    obtain rfl := Except.ok.inj h
    obtain ⟨_, hn⟩ := splitAtFirst_eq_some_iff.1 hs
    refine ⟨?_, bare_strip name, bare_strip value⟩
    rw [String.toList_ofList]
    exact fun hm => hn (mem_of_mem_strip hm)

theorem wellFormed_of_ofWord {word : String} (h : ofWord word = some target) :
    target.WellFormed := by
  unfold ofWord at h
  repeat' split at h
  all_goals cases h
  all_goals trivial

theorem wellFormed_of_read (h : read text = .ok target) : target.WellFormed := by
  unfold read at h
  simp only at h
  split at h
  · cases hw : ofWord (lower (.ofList (strip text.toList))) with
    | none => simp [hw] at h
    | some found =>
      obtain rfl : found = target := by simpa [hw] using h
      exact wellFormed_of_ofWord hw
  · rename_i word rest _
    split at h
    · rename_i hc
      obtain rfl := Except.ok.inj h
      refine ⟨?_, bare_strip rest⟩
      simpa [← String.toList_inj] using hc.2
    split at h
    · exact wellFormed_of_readNodes h
    split at h
    · exact wellFormed_of_readAttribute h
    · cases h

theorem read_of_colon {kind : String} {rest : List Char}
    (ht : text.toList = kind.toList ++ ':' :: rest) (hk : ':' ∉ kind.toList)
    (hs : strip kind.toList = kind.toList) (hr : strip rest = rest) :
    read text =
      if lower kind = "data-nodes" ∧ rest ≠ [] then .ok (.dataNodes (.ofList rest))
      else if lower kind = "nodes" then readNodes rest
      else if lower kind = "attr" then readAttribute rest
      else .error (.unknown text) := by
  have ha : strip text.toList = text.toList := by
    rw [ht]
    exact strip_append_cons hs (by decide) hr
  have hc : splitAtFirst ':' text.toList = some (kind.toList, rest) :=
    splitAtFirst_eq_some_iff.2 ⟨ht, hk⟩
  simp only [read, ha, hc, hr, String.ofList_toList]

theorem mapM_readNode_display (ids : List NodeId) :
    (ids.map NodeId.display).mapM readNode = .ok ids := by
  induction ids with
  | nil => rfl
  | cons id ids ih =>
    rw [List.map_cons, List.mapM_cons, ih, readNode, NodeId.read_display]
    rfl

theorem readNodes_display {ids : List NodeId} (h : ids ≠ []) :
    readNodes ([','].intercalate (ids.map NodeId.display)) = .ok (.nodes ids) := by
  have hd : ∀ item ∈ ids.map NodeId.display, strip item = item ∧ item ≠ [] := by
    intro item hi
    obtain ⟨id, _, rfl⟩ := List.mem_map.1 hi
    exact ⟨strip_eq_self_of_forall fun c hc => (id.of_mem_display c hc).2, id.display_ne_nil⟩
  have hc : ∀ item ∈ ids.map NodeId.display, ',' ∉ item := by
    intro item hi hm
    obtain ⟨id, _, rfl⟩ := List.mem_map.1 hi
    exact (id.of_mem_display _ hm).1 rfl
  have hs := List.splitOn_intercalate ',' hc (by simpa using h)
  have hm : ((ids.map NodeId.display).map strip).filter (· ≠ []) = ids.map NodeId.display := by
    rw [List.map_congr_left fun item hi => (hd item hi).1, List.map_id',
      List.filter_eq_self.2 fun item hi => by simpa using (hd item hi).2]
  simp only [readNodes, hs, hm, mapM_readNode_display]
  obtain ⟨id, ids, rfl⟩ := List.exists_cons_of_ne_nil h
  rfl

theorem read_display_dataNodes {cache : String} (hn : cache ≠ "") (hb : Bare cache) :
    read (display (.dataNodes cache)) = .ok (.dataNodes cache) := by
  have hk : "data-nodes:".toList = "data-nodes".toList ++ [':'] := by decide +kernel
  have hl : lower "data-nodes" = "data-nodes" := by decide +kernel
  have ht : (display (.dataNodes cache)).toList = "data-nodes".toList ++ ':' :: cache.toList := by
    change ("data-nodes:" ++ cache).toList = _
    rw [String.toList_append, hk, List.append_assoc, List.singleton_append]
  have hc : cache.toList ≠ [] := by simpa using hn
  rw [read_of_colon ht (by decide) (by decide +kernel) (bare_iff_strip.1 hb), hl, if_pos ⟨rfl, hc⟩,
    String.ofList_toList]

theorem read_display_nodes {ids : List NodeId} (hn : ids ≠ []) :
    read (display (.nodes ids)) = .ok (.nodes ids) := by
  have hk : "nodes:".toList = "nodes".toList ++ [':'] := by decide +kernel
  have hl : lower "nodes" = "nodes" := by decide +kernel
  let items := [','].intercalate (ids.map NodeId.display)
  have ht : (display (.nodes ids)).toList = "nodes".toList ++ ':' :: items := by
    change (String.ofList ("nodes:".toList ++ items)).toList = _
    rw [String.toList_ofList, hk, List.append_assoc, List.singleton_append]
  have hs : strip items = items := by
    refine strip_eq_self_of_forall fun c hc => ?_
    rcases of_mem_intercalate hc with hm | ⟨item, hi, hm⟩
    · rw [List.mem_singleton.1 hm]
      decide
    · obtain ⟨id, _, rfl⟩ := List.mem_map.1 hi
      exact (id.of_mem_display c hm).2
  rw [read_of_colon ht (by decide) (by decide +kernel) hs, hl, if_neg (by simp), if_pos rfl,
    readNodes_display hn]

theorem read_display_attribute {name value : String} (hn : '=' ∉ name.toList) (hb : Bare name)
    (hv : Bare value) : read (display (.attribute name value)) = .ok (.attribute name value) := by
  have hk : "attr:".toList = "attr".toList ++ [':'] := by decide +kernel
  have he : "=".toList = ['='] := by decide +kernel
  have hl : lower "attr" = "attr" := by decide +kernel
  rw [bare_iff_strip] at hb hv
  let pair := name.toList ++ '=' :: value.toList
  have ht : (display (.attribute name value)).toList = "attr".toList ++ ':' :: pair := by
    change ("attr:" ++ name ++ "=" ++ value).toList = _
    simp only [String.toList_append, hk, he, List.append_assoc, List.cons_append, List.nil_append,
      pair]
  have hs : strip pair = pair := strip_append_cons hb (by decide) hv
  have hp : splitAtFirst '=' pair = some (name.toList, value.toList) :=
    splitAtFirst_eq_some_iff.2 ⟨rfl, hn⟩
  rw [read_of_colon ht (by decide) (by decide +kernel) hs, hl, if_neg (by simp), if_neg (by simp),
    if_pos rfl]
  simp only [readAttribute, hp, hb, hv, String.ofList_toList]

theorem read_display_of_wellFormed (h : target.WellFormed) : read target.display = .ok target :=
  match target, h with
  | .cluster, _ => by decide +kernel
  | .localNode, _ => by decide +kernel
  | .servers, _ => by decide +kernel
  | .clients, _ => by decide +kernel
  | .dataNodes _, ⟨hn, hb⟩ => read_display_dataNodes hn hb
  | .nodes _, hn => read_display_nodes hn
  | .attribute _ _, ⟨hn, hb, hv⟩ => read_display_attribute hn hb hv

/-- A target is read from its text just if it is well-formed, and nothing else is read at all. -/
theorem read_display_iff_wellFormed :
    (∀ target : Target, read target.display = .ok target ↔ target.WellFormed) ∧
    ∀ (text : String) (target : Target), read text = .ok target →
      target.WellFormed ∧ read target.display = .ok target := by
  refine ⟨fun target => ⟨wellFormed_of_read, read_display_of_wellFormed⟩, fun text target h => ?_⟩
  have hw := wellFormed_of_read h
  exact ⟨hw, read_display_of_wellFormed hw⟩

theorem read_display_blank_parts :
    read " ATTR: a = b=c " = .ok (.attribute "a" "b=c") ∧ WellFormed (.attribute "a" "b=c") ∧
      read (display (.attribute "a" "b=c")) = .ok (.attribute "a" "b=c") := by
  have h : read " ATTR: a = b=c " = .ok (.attribute "a" "b=c") := by decide +kernel
  exact ⟨h, read_display_iff_wellFormed.2 _ _ h⟩

end Target

end SqlDispatch
