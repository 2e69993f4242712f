set_option autoImplicit false

/-!
Letter case. Only the letters A to Z have a case here: every other character is left as it is,
so `é` and `É` stay apart. Texts that differ in case alone are `alike`, and a text without small
letters is `Capitals`, the spelling under which names of directives and options are kept.
-/

namespace SqlDispatch.Text

def upper (text : String) : String := .ofList (text.toList.map Char.toUpper)

def lower (text : String) : String := .ofList (text.toList.map Char.toLower)

def alike (a b : String) : Bool := lower a == lower b

theorem toNat_toUpper (c : Char) :
    c.toUpper.toNat = if 97 ≤ c.toNat ∧ c.toNat ≤ 122 then c.toNat - 32 else c.toNat := by
  have ha : 'a'.val.toNat = 97 := rfl
  have hz : 'z'.val.toNat = 122 := rfl
  unfold Char.toUpper Char.toNat
  simp only [UInt32.le_iff_toNat_le, ha, hz]
  split
  · show (c.val + ('A'.val - 'a'.val)).toNat = _
    rw [UInt32.toNat_add, show ('A'.val - 'a'.val).toNat = 4294967264 from rfl]
    omega
  · rfl

theorem toNat_toLower (c : Char) :
    c.toLower.toNat = if 65 ≤ c.toNat ∧ c.toNat ≤ 90 then c.toNat + 32 else c.toNat := by
  have ha : 'A'.val.toNat = 65 := rfl
  have hz : 'Z'.val.toNat = 90 := rfl
  unfold Char.toLower Char.toNat
  simp only [UInt32.le_iff_toNat_le, ha, hz]
  split
  · show (c.val + ('a'.val - 'A'.val)).toNat = _
    rw [UInt32.toNat_add, show ('a'.val - 'A'.val).toNat = 32 from rfl]
    omega
  · rfl

theorem toUpper_toLower (c : Char) : c.toLower.toUpper = c.toUpper := by
  apply Char.toNat_inj.1
  simp only [toNat_toUpper, toNat_toLower]
  repeat' split
  all_goals omega

theorem toLower_toUpper (c : Char) : c.toUpper.toLower = c.toLower := by
  apply Char.toNat_inj.1
  simp only [toNat_toUpper, toNat_toLower]
  repeat' split
  all_goals omega

theorem toUpper_toUpper (c : Char) : c.toUpper.toUpper = c.toUpper := by
  rw [← toUpper_toLower c.toUpper, toLower_toUpper, toUpper_toLower]

theorem toLower_toLower (c : Char) : c.toLower.toLower = c.toLower := by
  rw [← toLower_toUpper c.toLower, toUpper_toLower, toLower_toUpper]

@[simp] theorem toList_upper (text : String) :
    (upper text).toList = text.toList.map Char.toUpper := String.toList_ofList

@[simp] theorem toList_lower (text : String) :
    (lower text).toList = text.toList.map Char.toLower := String.toList_ofList

theorem upper_upper (text : String) : upper (upper text) = upper text := by
  apply String.toList_inj.1
  simp only [toList_upper, List.map_map]
  exact List.map_congr_left fun c _ => toUpper_toUpper c

theorem upper_lower (text : String) : upper (lower text) = upper text := by
  apply String.toList_inj.1
  simp only [toList_upper, toList_lower, List.map_map]
  exact List.map_congr_left fun c _ => toUpper_toLower c

theorem lower_upper (text : String) : lower (upper text) = lower text := by
  apply String.toList_inj.1
  simp only [toList_upper, toList_lower, List.map_map]
  exact List.map_congr_left fun c _ => toLower_toUpper c

theorem lower_lower (text : String) : lower (lower text) = lower text := by
  apply String.toList_inj.1
  simp only [toList_lower, List.map_map]
  exact List.map_congr_left fun c _ => toLower_toLower c

theorem alike_iff_lower {a b : String} : alike a b = true ↔ lower a = lower b := by
  simp [alike]

theorem alike_iff_upper {a b : String} : alike a b = true ↔ upper a = upper b := by
  rw [alike_iff_lower]
  constructor <;> intro h
  · rw [← upper_lower a, h, upper_lower]
  · rw [← lower_upper a, h, lower_upper]

structure Capitals where
  text : String
  upper_text : upper text = text
  deriving DecidableEq

namespace Capitals

def ofText (text : String) : Capitals := ⟨upper text, upper_upper text⟩

theorem ext_text {a b : Capitals} (h : a.text = b.text) : a = b := by
  cases a
  cases b
  simp_all

theorem ofText_text (name : Capitals) : ofText name.text = name :=
  ext_text name.upper_text

theorem alike_text_iff {name : Capitals} {text : String} :
    alike text name.text = true ↔ ofText text = name := by
  rw [alike_iff_upper, name.upper_text]
  exact ⟨fun h => ext_text h, fun h => h ▸ rfl⟩

end Capitals

end SqlDispatch.Text
