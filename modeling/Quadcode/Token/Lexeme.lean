import Quadcode.Token.Basic

/-!
# Lexemes

Which pieces of text belong to which class of token. For each class, `Token.Kind.length?` measures
the piece at the head of a text, and `Token.lexeme?` takes the first class that has one there. All
lengths count characters, and no lexeme is empty (`Token.lexeme?_pos`).
-/

namespace Quadcode.Token

/-- The words that no identifier can be. -/
def keywords : List String :=
  ["print", "var", "if", "while", "for"]

/-- The brackets: round ones around expressions and loop headers, braces around bodies. -/
def brackets : List String :=
  ["(", ")", "\x7b", "\x7d"]

/-- Blanks between tokens. -/
def isBlank (c : Char) : Bool :=
  [' ', '\t', '\r', '\n', '\x0c'].contains c

/-- Characters with which an identifier begins. -/
def isWordStart (c : Char) : Bool :=
  c.isAlpha || c == '_'

/-- Characters with which an identifier goes on. -/
def isWordChar (c : Char) : Bool :=
  c.isAlphanum || c == '_'

/-- How many characters at the head of `cs` satisfy `p` in a row. -/
def run (p : Char → Bool) (cs : List Char) : Nat :=
  (cs.takeWhile p).length

/-- The length of the first of `words` with which `cs` begins. -/
def spelled? (words : List String) (cs : List Char) : Option Nat :=
  (words.find? fun w => w.toList.isPrefixOf cs).map fun w => w.toList.length

/-- A comment: two slashes and the rest of the line. -/
def comment? : List Char → Option Nat
  | '/' :: '/' :: cs => some (2 + run (· != '\n') cs)
  | _ => none

/-- As many blanks as there are. -/
def whitespace? (cs : List Char) : Option Nat :=
  if run isBlank cs = 0 then none else some (run isBlank cs)

/-- The length of a point and the digits behind it, zero if there are none. -/
def fractionLength : List Char → Nat
  | '.' :: cs => if run Char.isDigit cs = 0 then 0 else 1 + run Char.isDigit cs
  | _ => 0

/-- The length of a sign, zero if there is none. -/
def signLength : List Char → Nat
  | '+' :: _ => 1
  | '-' :: _ => 1
  | _ => 0

/-- The length of an exponent, mark, sign and digits, zero if it lacks mark or digits. -/
def exponentLength : List Char → Nat
  | mark :: cs =>
    let sign := signLength cs
    let digits := run Char.isDigit (cs.drop sign)
    if (mark = 'e' ∨ mark = 'E') ∧ digits ≠ 0 then 1 + sign + digits else 0
  | [] => 0

/-- A number without a sign: digits, a fraction or both, and then perhaps an exponent. -/
def unsigned? (cs : List Char) : Option Nat :=
  let whole := run Char.isDigit cs
  let mantissa := whole + fractionLength (cs.drop whole)
  if mantissa = 0 then none else some (mantissa + exponentLength (cs.drop mantissa))

/-- A number. Behind an operand a minus is no sign but the operator. -/
def number? (afterOperand : Bool) : List Char → Option Nat
  | '-' :: cs => if afterOperand then none else (unsigned? cs).map (· + 1)
  | cs => unsigned? cs

/-- A keyword that is not the beginning of a longer word. -/
def keyword? (cs : List Char) : Option Nat :=
  (spelled? keywords cs).filter fun n => !(cs.drop n).head?.any isWordChar

/-- An identifier. -/
def identifier? : List Char → Option Nat
  | c :: cs => if isWordStart c then some (1 + run isWordChar cs) else none
  | [] => none

/-- The length of the lexeme of a class at the head of `cs`. -/
def Kind.length? (afterOperand : Bool) (cs : List Char) : Kind → Option Nat
  | .comment => comment? cs
  | .whitespace => whitespace? cs
  | .number => number? afterOperand cs
  | .keyword => keyword? cs
  | .operator => spelled? (Operator.all.map Operator.symbol) cs
  | .identifier => identifier? cs
  | .assignment => spelled? ["="] cs
  | .bracket => spelled? brackets cs
  | .separator => spelled? [";"] cs

/-- The class and length of the lexeme at the head of `cs`: the first class that has one there. -/
def lexeme? (afterOperand : Bool) (cs : List Char) : Option (Kind × Nat) :=
  Kind.all.findSome? fun k => (k.length? afterOperand cs).map fun n => (k, n)

/-! ## No lexeme is empty -/

theorem spelled?_pos {words : List String} {cs : List Char} {n : Nat} (hw : "" ∉ words)
    (h : spelled? words cs = some n) : 0 < n := by
  obtain ⟨w, hf, rfl⟩ := Option.map_eq_some_iff.1 h
  refine List.length_pos_iff.2 fun he => hw ?_
  have hmem := List.mem_of_find?_eq_some hf
  rwa [String.toList_eq_nil_iff.1 he] at hmem

theorem unsigned?_pos {cs : List Char} {n : Nat} (h : unsigned? cs = some n) : 0 < n := by
  simp only [unsigned?] at h
  split at h
  · cases h
  · obtain rfl := Option.some.inj h
    omega

theorem Kind.length?_pos {afterOperand : Bool} {cs : List Char} {k : Kind} {n : Nat}
    (h : k.length? afterOperand cs = some n) : 0 < n := by
  cases k with
  | comment =>
    simp only [Kind.length?] at h
    unfold comment? at h
    split at h
    · obtain rfl := Option.some.inj h
      omega
    · cases h
  | whitespace =>
    simp only [Kind.length?, whitespace?] at h
    split at h
    · cases h
    · obtain rfl := Option.some.inj h
      omega
  | number =>
    simp only [Kind.length?] at h
    unfold number? at h
    split at h
    · split at h
      · cases h
      · obtain ⟨m, -, rfl⟩ := Option.map_eq_some_iff.1 h
        omega
    · exact unsigned?_pos h
  | keyword => exact spelled?_pos (by decide) (Option.filter_eq_some_iff.1 h).1
  | operator => exact spelled?_pos (by decide) h
  | identifier =>
    simp only [Kind.length?] at h
    unfold identifier? at h
    split at h
    · split at h
      · obtain rfl := Option.some.inj h
        omega
      · cases h
    · cases h
  | assignment => exact spelled?_pos (by decide) h
  | bracket => exact spelled?_pos (by decide) h
  | separator => exact spelled?_pos (by decide) h

theorem lexeme?_pos {afterOperand : Bool} {cs : List Char} {k : Kind} {n : Nat}
    (h : lexeme? afterOperand cs = some (k, n)) : 0 < n := by
  obtain ⟨k', -, hk⟩ := List.exists_of_findSome?_eq_some h
  obtain ⟨m, hm, he⟩ := Option.map_eq_some_iff.1 hk
  cases he
  exact Kind.length?_pos hm

end Quadcode.Token
