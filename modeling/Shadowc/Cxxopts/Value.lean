import Mathlib.Algebra.Order.Group.Int
import Mathlib.Data.Int.Order.Basic
import Mathlib.Data.List.TakeWhile

/-!
# The values of options

`cxxopts::value<T>()` for the types `T` that an option can have, and `parse_value`, which reads a text as a value of the
type.  A text is a list of characters; the texts of the command line have no others than the bytes of their strings.

`is >> value` skips blanks, reads a sign and digits, and fails on what an `int` does not hold; what is left in the
stream is an error.  So the texts of a number are those of `IntText` (`parseInt_eq_ok_iff`), and the one that `<<`
prints is one of them (`parseInt_printInt`).
-/

namespace Shadowc.Cxxopts

abbrev Text := List Char

/-! ### Exceptions -/

/-- The exceptions that are thrown. -/
inductive OptionException where
  | optionExists (option : Text)
  | invalidOptionFormat (format : Text)
  | optionNotExists (option : Text)
  | missingArgument (option : Text)
  | optionRequiresArgument (option : Text)
  | optionNotHasArgument (option arg : Text)
  | optionNotPresent (option : Text)
  | argumentIncorrectType (arg : Text)
  deriving DecidableEq, Repr

/-! ### Numbers -/

/-- `isspace` -/
def isSpace (c : Char) : Bool := c.toNat = 32 ∨ 9 ≤ c.toNat ∧ c.toNat ≤ 13

def intMin : ℤ := -2 ^ 31
def intMax : ℤ := 2 ^ 31 - 1

def IsInt (v : ℤ) : Prop := intMin ≤ v ∧ v ≤ intMax

instance : DecidablePred IsInt := fun v => inferInstanceAs (Decidable (intMin ≤ v ∧ v ≤ intMax))

/-- The sign that a text begins with, and what follows it. -/
def takeSign : Text → Bool × Text
  | '-' :: text => (true, text)
  | '+' :: text => (false, text)
  | text => (false, text)

/-- The number that digits stand for. -/
def numberOf (negative : Bool) (digits : Text) : ℤ :=
  if negative then -(Nat.ofDigitChars 10 digits 0) else Nat.ofDigitChars 10 digits 0

/-- `is >> value`: the number, and what is left in the stream; `none` when it fails. -/
def extractInt (text : Text) : Option (ℤ × Text) :=
  let (negative, text) := takeSign (text.dropWhile isSpace)
  let digits := text.takeWhile Char.isDigit
  if digits ≠ [] ∧ IsInt (numberOf negative digits) then
    some (numberOf negative digits, text.dropWhile Char.isDigit)
  else none

/-- `parse_value` of an `int` -/
def parseInt (text : Text) : Except OptionException ℤ :=
  match extractInt text with
  | none => .error (.argumentIncorrectType text)
  | some (v, rest) => if rest ≠ [] then .error (.argumentIncorrectType text) else .ok v

/-- What `<<` prints. -/
def printInt (v : ℤ) : Text :=
  if v < 0 then '-' :: Nat.toDigits 10 v.natAbs else Nat.toDigits 10 v.natAbs

/-- The texts of a number. -/
inductive IntText : Text → ℤ → Prop
  | mk {blanks sign digits : Text} {negative : Bool} : (∀ c ∈ blanks, isSpace c) →
      (sign, negative) ∈ [([], false), (['+'], false), (['-'], true)] → digits ≠ [] → (∀ c ∈ digits, c.isDigit) →
      IntText (blanks ++ (sign ++ digits)) (numberOf negative digits)

theorem not_isSpace_of_isDigit {c : Char} (h : c.isDigit) : isSpace c = false := by
  have h' : 48 ≤ c.toNat ∧ c.toNat ≤ 57 := Char.isDigit_iff_toNat.1 h
  simp only [isSpace, decide_eq_false_iff_not]
  omega

theorem ne_sign_of_isDigit {c : Char} (h : c.isDigit) : c ≠ '-' ∧ c ≠ '+' := by
  constructor <;> rintro rfl <;> revert h <;> decide

theorem takeSign_append {sign digits : Text} {negative : Bool}
    (hs : (sign, negative) ∈ [([], false), (['+'], false), (['-'], true)]) (hd : ∀ c ∈ digits, c.isDigit) :
    takeSign (sign ++ digits) = (negative, digits) := by
  simp only [List.mem_cons, Prod.mk.injEq, List.not_mem_nil, or_false] at hs
  rcases hs with ⟨rfl, rfl⟩ | ⟨rfl, rfl⟩ | ⟨rfl, rfl⟩
  · cases digits with
    | nil => rfl
    | cons c digits =>
      obtain ⟨hminus, hplus⟩ := ne_sign_of_isDigit (hd c (by simp))
      simp only [List.nil_append]
      unfold takeSign
      split
      · next heq => exact absurd (List.cons.inj heq).1 hminus
      · next heq => exact absurd (List.cons.inj heq).1 hplus
      · rfl
  · rfl
  · rfl

theorem takeSign_eq {text rest : Text} {negative : Bool} (h : takeSign text = (negative, rest)) :
    ∃ sign, (sign, negative) ∈ [([], false), (['+'], false), (['-'], true)] ∧ text = sign ++ rest := by
  unfold takeSign at h
  split at h <;> obtain ⟨rfl, rfl⟩ := Prod.mk.inj h
  · exact ⟨['-'], by simp, rfl⟩
  · exact ⟨['+'], by simp, rfl⟩
  · exact ⟨[], by simp, rfl⟩

/-- The blanks before a number end where it begins. -/
theorem dropWhile_blanks {blanks sign digits : Text} {negative : Bool} (hb : ∀ c ∈ blanks, isSpace c)
    (hs : (sign, negative) ∈ [([], false), (['+'], false), (['-'], true)]) (hne : digits ≠ [])
    (hd : ∀ c ∈ digits, c.isDigit) : (blanks ++ (sign ++ digits)).dropWhile isSpace = sign ++ digits := by
  have hhead : ∀ c l, sign ++ digits = c :: l → isSpace c = false := by
    intro c l heq
    simp only [List.mem_cons, Prod.mk.injEq, List.not_mem_nil, or_false] at hs
    rcases hs with ⟨rfl, rfl⟩ | ⟨rfl, rfl⟩ | ⟨rfl, rfl⟩
    · exact not_isSpace_of_isDigit (hd c (by simp_all))
    · obtain rfl := (List.cons.inj heq).1
      rfl
    · obtain rfl := (List.cons.inj heq).1
      rfl
  rw [List.dropWhile_append_of_pos hb]
  cases htext : sign ++ digits with
  | nil => exact absurd (List.append_eq_nil_iff.1 htext).2 hne
  | cons c l => exact List.dropWhile_cons_of_neg (by simp [hhead c l htext])

/-- **What is read as a number.** -/
theorem parseInt_eq_ok_iff {text : Text} {v : ℤ} : parseInt text = .ok v ↔ IntText text v ∧ IsInt v := by
  constructor
  · intro h
    simp only [parseInt, extractInt] at h
    cases hsign : takeSign (text.dropWhile isSpace) with
    | mk negative rest =>
      simp only [hsign] at h
      obtain ⟨sign, hs, htext⟩ := takeSign_eq hsign
      by_cases hif : rest.takeWhile Char.isDigit ≠ [] ∧ IsInt (numberOf negative (rest.takeWhile Char.isDigit))
      · rw [if_pos hif] at h
        by_cases hrest : rest.dropWhile Char.isDigit = []
        · simp only [hrest, ne_eq, not_true_eq_false, if_false, Except.ok.injEq] at h
          have hall : rest.takeWhile Char.isDigit = rest := by
            have := List.takeWhile_append_dropWhile (p := Char.isDigit) (l := rest)
            rwa [hrest, List.append_nil] at this
          rw [hall] at h hif
          subst h
          refine ⟨?_, hif.2⟩
          rw [← List.takeWhile_append_dropWhile (p := isSpace) (l := text), htext]
          refine .mk (fun c hc => ?_) hs hif.1 fun c hc => ?_
          · exact List.mem_takeWhile_imp hc
          · rw [← hall] at hc
            exact List.mem_takeWhile_imp hc
        · simp [hrest] at h
      · rw [if_neg hif] at h
        cases h
  · rintro ⟨⟨hb, hs, hne, hd⟩, hv⟩
    simp only [parseInt, extractInt, dropWhile_blanks hb hs hne hd, takeSign_append hs hd,
      List.takeWhile_eq_self_iff.2 hd, List.dropWhile_eq_nil_iff.2 hd]
    rw [if_pos ⟨hne, hv⟩]
    simp

/-- **What is printed is read back.** -/
theorem parseInt_printInt {v : ℤ} (h : IsInt v) : parseInt (printInt v) = .ok v := by
  have hdigits : ∀ c ∈ Nat.toDigits 10 v.natAbs, c.isDigit := fun c hc =>
    Nat.isDigit_of_mem_toDigits (by decide) (by decide) hc
  refine parseInt_eq_ok_iff.2 ⟨?_, h⟩
  by_cases hneg : v < 0
  · have hv : numberOf true (Nat.toDigits 10 v.natAbs) = v := by
      simp only [numberOf, if_true, Nat.ofDigitChars_ten_toDigits]
      omega
    have ht : IntText ([] ++ (['-'] ++ Nat.toDigits 10 v.natAbs)) (numberOf true (Nat.toDigits 10 v.natAbs)) :=
      .mk (by simp) (by simp) Nat.toDigits_ne_nil hdigits
    rw [printInt, if_pos hneg]
    rwa [hv] at ht
  · have hv : numberOf false (Nat.toDigits 10 v.natAbs) = v := by
      simp only [numberOf, Bool.false_eq_true, if_false, Nat.ofDigitChars_ten_toDigits]
      omega
    have ht : IntText ([] ++ ([] ++ Nat.toDigits 10 v.natAbs)) (numberOf false (Nat.toDigits 10 v.natAbs)) :=
      .mk (by simp) (by simp) Nat.toDigits_ne_nil hdigits
    rw [printInt, if_neg hneg]
    rwa [hv] at ht

/-! ### Types -/

/-- The types `T` of `value<T>()`. -/
inductive Ty where
  | string
  | int
  | bool
  | vector (elem : Ty)
  deriving DecidableEq, Repr

def Ty.Val : Ty → Type
  | string => Text
  | int => ℤ
  | bool => Bool
  | vector elem => List elem.Val

/-- What `std::make_shared<T>()` makes. -/
def Ty.zero : (type : Ty) → type.Val
  | string => ([] : Text)
  | int => (0 : ℤ)
  | bool => false
  | vector elem => ([] : List elem.Val)

/-- `value_has_arg` -/
def Ty.hasArg : Ty → Bool
  | bool => false
  | _ => true

/-- `type_is_container` -/
def Ty.isContainer : Ty → Bool
  | vector _ => true
  | _ => false

/-- `parse_value` reads a text into a variable. -/
def parseValue : (type : Ty) → Text → type.Val → Except OptionException type.Val
  | .string, text, _ => .ok text
  | .int, text, _ => parseInt text
  | .bool, _, _ => .ok true
  | .vector elem, text, (value : List elem.Val) => do
    let v ← parseValue elem text elem.zero
    return (value ++ [v] : List elem.Val)

end Shadowc.Cxxopts
