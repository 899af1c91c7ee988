import Mathlib.Data.List.Basic
import Mathlib.Tactic.Common

set_option autoImplicit false

/-!
# The JSON-text grammar

RFC 8259 over bytes. Bytes above 0x7F stand in strings unchecked, and a `\u` escape is any four
hexadecimal digits.
-/
namespace NewClLang.JsonGrammar

def Space (b : UInt8) : Prop := b = 32 ∨ b = 9 ∨ b = 10 ∨ b = 13

def Digit (b : UInt8) : Prop := 48 ≤ b ∧ b ≤ 57

def Digit1_9 (b : UInt8) : Prop := 49 ≤ b ∧ b ≤ 57

def HexDigit (b : UInt8) : Prop := Digit b ∨ (65 ≤ b ∧ b ≤ 70) ∨ (97 ≤ b ∧ b ≤ 102)

def Ws (t : List UInt8) : Prop := ∀ b ∈ t, Space b

/-- One digit or more. -/
def Digits (t : List UInt8) : Prop := t ≠ [] ∧ ∀ b ∈ t, Digit b

def IntPart (t : List UInt8) : Prop :=
  t = [48] ∨ ∃ b rest, t = b :: rest ∧ Digit1_9 b ∧ ∀ c ∈ rest, Digit c

def FracPart (t : List UInt8) : Prop := t = [] ∨ ∃ ds, t = 46 :: ds ∧ Digits ds

def ExpPart (t : List UInt8) : Prop :=
  t = [] ∨ ∃ e sign ds, t = e :: (sign ++ ds) ∧ (e = 101 ∨ e = 69) ∧
    (sign = [] ∨ sign = [45] ∨ sign = [43]) ∧ Digits ds

/-- `number = [ minus ] int [ frac ] [ exp ]` -/
def Number (t : List UInt8) : Prop :=
  ∃ minus int frac exp, t = minus ++ (int ++ (frac ++ exp)) ∧ (minus = [] ∨ minus = [45]) ∧
    IntPart int ∧ FracPart frac ∧ ExpPart exp

/-- What may follow the backslash of an escape. -/
inductive Escape : List UInt8 → Prop where
  | short {b : UInt8} (h : b ∈ [34, 92, 47, 98, 102, 110, 114, 116]) : Escape [b]
  | unicode {a b c d : UInt8} (ha : HexDigit a) (hb : HexDigit b) (hc : HexDigit c)
      (hd : HexDigit d) : Escape [117, a, b, c, d]

/-- `*char` -/
inductive Chars : List UInt8 → Prop where
  | nil : Chars []
  | unescaped {b : UInt8} {t : List UInt8} (h : 32 ≤ b) (hquote : b ≠ 34) (hback : b ≠ 92)
      (ht : Chars t) : Chars (b :: t)
  | escaped {e t : List UInt8} (h : Escape e) (ht : Chars t) : Chars (92 :: (e ++ t))

inductive Production where
  | value
  | elements
  | members

/-- `elements` is `value *( value-separator value )` and `members` is
    `member *( value-separator member )`, where `member = string name-separator value`, each with the
    whitespace around its parts. -/
inductive Derives : Production → List UInt8 → Prop where
  | null : Derives .value [110, 117, 108, 108]
  | true : Derives .value [116, 114, 117, 101]
  | false : Derives .value [102, 97, 108, 115, 101]
  | number {t : List UInt8} (h : Number t) : Derives .value t
  | string {t : List UInt8} (h : Chars t) : Derives .value (34 :: (t ++ [34]))
  | emptyArray {w : List UInt8} (hw : Ws w) : Derives .value (91 :: (w ++ [93]))
  | array {t : List UInt8} (h : Derives .elements t) : Derives .value (91 :: (t ++ [93]))
  | emptyObject {w : List UInt8} (hw : Ws w) : Derives .value (123 :: (w ++ [125]))
  | object {t : List UInt8} (h : Derives .members t) : Derives .value (123 :: (t ++ [125]))
  | lastElement {a t b : List UInt8} (ha : Ws a) (h : Derives .value t) (hb : Ws b) :
      Derives .elements (a ++ (t ++ b))
  | element {a t b rest : List UInt8} (ha : Ws a) (h : Derives .value t) (hb : Ws b)
      (hrest : Derives .elements rest) : Derives .elements (a ++ (t ++ (b ++ 44 :: rest)))
  | lastMember {a k b c t d : List UInt8} (ha : Ws a) (hk : Chars k) (hb : Ws b) (hc : Ws c)
      (h : Derives .value t) (hd : Ws d) :
      Derives .members (a ++ (34 :: (k ++ 34 :: (b ++ 58 :: (c ++ (t ++ d))))))
  | member {a k b c t d rest : List UInt8} (ha : Ws a) (hk : Chars k) (hb : Ws b) (hc : Ws c)
      (h : Derives .value t) (hd : Ws d) (hrest : Derives .members rest) :
      Derives .members (a ++ (34 :: (k ++ 34 :: (b ++ 58 :: (c ++ (t ++ (d ++ 44 :: rest)))))))

/-- `JSON-text = ws value ws` -/
def IsText (t : List UInt8) : Prop :=
  ∃ a v b, t = a ++ (v ++ b) ∧ Ws a ∧ Derives .value v ∧ Ws b

/-- What comes after a value inside a text. -/
def Follow (r : List UInt8) : Prop :=
  ∀ b rest, r = b :: rest → Space b ∨ b = 44 ∨ b = 93 ∨ b = 125

instance (b : UInt8) : Decidable (Space b) := inferInstanceAs (Decidable (_ ∨ _))

instance (b : UInt8) : Decidable (Digit b) := inferInstanceAs (Decidable (_ ∧ _))

instance (b : UInt8) : Decidable (Digit1_9 b) := inferInstanceAs (Decidable (_ ∧ _))

instance (b : UInt8) : Decidable (HexDigit b) := inferInstanceAs (Decidable (_ ∨ _))

theorem Digit1_9.digit {b : UInt8} (h : Digit1_9 b) : Digit b :=
  ⟨UInt8.le_trans (by decide) h.1, h.2⟩

theorem Ws.nil : Ws [] := by
  intro b hb
  cases hb

theorem Ws.append {s t : List UInt8} (hs : Ws s) (ht : Ws t) : Ws (s ++ t) := by
  intro b hb
  rcases List.mem_append.mp hb with hb | hb
  · exact hs b hb
  · exact ht b hb

theorem Follow.nil : Follow [] := by
  intro b rest h
  cases h

theorem Follow.cons {b : UInt8} {rest : List UInt8} (h : Space b ∨ b = 44 ∨ b = 93 ∨ b = 125) :
    Follow (b :: rest) := by
  intro c r hr
  cases hr
  exact h

theorem Follow.ws {w r : List UInt8} (hw : Ws w) (hr : Follow r) : Follow (w ++ r) := by
  cases w with
  | nil => exact hr
  | cons b w => exact .cons (Or.inl (hw b List.mem_cons_self))

end NewClLang.JsonGrammar
