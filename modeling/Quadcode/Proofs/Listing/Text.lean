import Quadcode.Proofs.Lowering.Operands

/-!
# The text of a listing

The separators of a listing, line feeds between the quads and commas between the fields, are no
characters of a field (`Quad.framed_of_sourced`). So the lines and the fields can be read back off
the text. The first field then tells which operation or test it is and how many operands it has. Two
listings have the same text exactly if they have the same quads up to operands that are written
alike (`compile_text_eq_iff`).
-/

namespace Quadcode

open Token

/-! ## The characters of a field -/

/-- The character can stand in a field of a quad. -/
def isFieldChar (c : Char) : Bool :=
  isWordChar c || ['-', '.', '+', '*', '/', '=', '<', '>', '!', '&', '?'].contains c

theorem isFieldChar_of_isWordChar {c : Char} (h : isWordChar c) : isFieldChar c := by
  rw [isFieldChar, h, Bool.true_or]

theorem isFieldChar_of_isDigit {c : Char} (h : c.isDigit) : isFieldChar c :=
  isFieldChar_of_isWordChar (isWordChar_of_isDigit h)

/-- The text can be a field of a quad. -/
def isField (text : String) : Bool :=
  text.toList.all isFieldChar

theorem isField_append (s t : String) : isField (s ++ t) = (isField s && isField t) := by
  rw [isField, String.toList_append, List.all_append, isField, isField]

theorem isDigit_of_mem_repr {n : Nat} {c : Char} (h : c ∈ n.repr.toList) : c.isDigit := by
  rw [Nat.toList_repr] at h
  exact Nat.isDigit_of_mem_toDigits (by decide) (Nat.le_refl 10) h

theorem isField_repr (n : Nat) : isField n.repr :=
  List.all_eq_true.2 fun _ hc => isFieldChar_of_isDigit (isDigit_of_mem_repr hc)

theorem all_isFieldChar_mantissa {w : List Char} (h : Mantissa w) : w.all isFieldChar := by
  have hdigits {ds : List Char} (hds : Digits ds) : ds.all isFieldChar :=
    List.all_eq_true.2 fun c hc => isFieldChar_of_isDigit (hds.2 c hc)
  have hpoint : isFieldChar '.' := by decide
  cases h with
  | whole digits => exact hdigits digits
  | mixed digits fraction =>
    rw [List.all_append, List.all_cons, hdigits digits, hpoint, hdigits fraction]; rfl
  | fraction fraction => rw [List.all_cons, hpoint, hdigits fraction]; rfl

theorem Binary64.isField_text (v : Binary64) : isField v.text := by
  have hsign (negative : Bool) : (sign negative).all isFieldChar := by cases negative <;> decide
  cases v with
  | finite negative rank =>
    rw [text, isField, String.toList_ofList, List.all_append, hsign, Bool.true_and]
    exact all_isFieldChar_mantissa (Decimal.mantissa_positional _)
  | infinite negative =>
    rw [text, isField, String.toList_ofList, List.all_append, hsign]
    decide
  | nan => decide

theorem Operand.isField_text {x : Operand} (h : x.Sourced) : isField x.text := by
  cases x with
  | number value => exact value.isField_text
  | name y =>
    obtain ⟨hword, -⟩ : Kind.identifier.Spells false y.toList := h
    exact List.all_eq_true.2 fun c hc => isFieldChar_of_isWordChar (hword.isWordChar c hc)
  | temp index =>
    rw [text, isField_append, isField_repr]
    decide

theorem Operation.isField_symbol (operation : Operation) : isField operation.symbol := by
  cases operation with
  | copy => decide
  | apply op => cases op <;> decide

theorem Test.isField_mnemonic (test : Test) : isField test.mnemonic := by
  cases test with
  | always => decide
  | isZero x => exact (by decide : isField "jez")
  | isNonzero x => exact (by decide : isField "jnz")
  | compare c left right =>
    rw [mnemonic, isField_append]
    cases c <;> decide

theorem Target.isField_text (target : Target) : isField target.text := by
  match target with
  | .unresolved => decide
  | .to address => exact isField_repr address

namespace Quad

theorem isField_operandText {x : Option Operand} (h : ∀ y ∈ x.toList, y.Sourced) :
    isField (operandText x) := by
  cases x with
  | none => decide
  | some y => exact y.isField_text (h y (.head _))

/-- No field of the quad has a character in it that frames fields. -/
def Framed (q : Quad) : Prop :=
  ∀ field ∈ q.fields, isField field

theorem framed_of_sourced {q : Quad} (h : ∀ x ∈ q.mentioned, x.Sourced) : q.Framed := by
  unfold Framed
  rw [mentioned, List.forall_mem_append] at h
  cases q with
  | operate operation left right result =>
    rw [operands, List.forall_mem_cons] at h
    simp only [fields, List.forall_mem_cons]
    refine ⟨operation.isField_symbol, left.isField_text h.1.1, isField_operandText h.1.2, ?_,
      List.forall_mem_nil _⟩
    exact result.isField_text (h.2 result (.head _))
  | jump test target =>
    rw [operands, List.forall_mem_append] at h
    simp only [fields, List.forall_mem_cons]
    refine ⟨test.isField_mnemonic, ?_, ?_, target.isField_text, List.forall_mem_nil _⟩
    · exact isField_operandText h.1.1
    · exact isField_operandText h.1.2

end Quad

/-! ## Fields and lines -/

theorem not_mem_of_isField {text : String} (h : isField text) {c : Char}
    (hc : isFieldChar c = false) : c ∉ text.toList := by
  intro hmem
  rw [List.all_eq_true.1 h c hmem] at hc
  cases hc

theorem not_mem_intercalate {c : Char} {sep : List Char} {ws : List (List Char)} (hsep : c ∉ sep)
    (h : ∀ w ∈ ws, c ∉ w) : c ∉ sep.intercalate ws := by
  induction ws with
  | nil => exact List.not_mem_nil
  | cons w ws ih =>
    rw [List.forall_mem_cons] at h
    cases ws with
    | nil => rw [List.intercalate_singleton]; exact h.1
    | cons v ws =>
      rw [List.intercalate_cons_cons, List.mem_append, List.mem_append]
      rintro ((hc | hc) | hc)
      · exact h.1 hc
      · exact hsep hc
      · exact ih h.2 hc

/-- A comma with a blank behind each part but the last is a comma between parts
that begin with a blank. -/
theorem intercalate_comma_blank (w : List Char) (ws : List (List Char)) :
    [',', ' '].intercalate (w :: ws) = [','].intercalate (w :: ws.map (' ' :: ·)) := by
  induction ws generalizing w with
  | nil => simp
  | cons v ws ih =>
    rw [List.intercalate_cons_cons, ih v, List.map_cons, List.intercalate_cons_cons]
    cases ws <;> simp [List.intercalate_cons_cons]

theorem splitOn_fields {w : List Char} {ws : List (List Char)} (h : ∀ v ∈ w :: ws, ',' ∉ v) :
    List.splitOn ',' ([',', ' '].intercalate (w :: ws)) = w :: ws.map (' ' :: ·) := by
  rw [intercalate_comma_blank]
  refine List.splitOn_intercalate ',' ?_ (List.cons_ne_nil _ _)
  rw [List.forall_mem_cons] at h ⊢
  refine ⟨h.1, fun v hv => ?_⟩
  obtain ⟨u, hu, rfl⟩ := List.mem_map.1 hv
  exact List.not_mem_cons_of_ne_of_not_mem (by decide) (h.2 u hu)

theorem fields_injective {ws vs : List (List Char)} (hws : ∀ w ∈ ws, ',' ∉ w)
    (hvs : ∀ v ∈ vs, ',' ∉ v) (hw : ws ≠ []) (hv : vs ≠ [])
    (h : [',', ' '].intercalate ws = [',', ' '].intercalate vs) : ws = vs := by
  obtain ⟨w, ws, rfl⟩ := List.exists_cons_of_ne_nil hw
  obtain ⟨v, vs, rfl⟩ := List.exists_cons_of_ne_nil hv
  have hsplit : w :: ws.map (' ' :: ·) = v :: vs.map (' ' :: ·) := by
    rw [← splitOn_fields hws, ← splitOn_fields hvs, h]
  obtain ⟨rfl, htail⟩ := List.cons.inj hsplit
  rw [List.map_injective_iff.2 List.cons_injective htail]

theorem flatMap_newline (lines : List (List Char)) :
    lines.flatMap (· ++ ['\n']) = ['\n'].intercalate (lines ++ [[]]) := by
  induction lines with
  | nil => rfl
  | cons line lines ih =>
    rw [List.flatMap_cons, ih, List.cons_append, List.intercalate_cons_of_ne_nil (by simp)]

theorem splitOn_lines {lines : List (List Char)} (h : ∀ line ∈ lines, '\n' ∉ line) :
    List.splitOn '\n' (lines.flatMap (· ++ ['\n'])) = lines ++ [[]] := by
  rw [flatMap_newline]
  refine List.splitOn_intercalate '\n' ?_ (by simp)
  rw [List.forall_mem_append, List.forall_mem_singleton]
  exact ⟨h, List.not_mem_nil⟩

namespace Quad

theorem toList_text (q : Quad) :
    q.text.toList = '(' :: ([',', ' '].intercalate (q.fields.map String.toList) ++ [')']) := by
  rw [text, String.toList_append, String.toList_append, String.toList_intercalate]
  rfl

theorem Framed.not_mem_text {q : Quad} (h : q.Framed) {c : Char} (hc : isFieldChar c = false)
    (hmark : c ∉ ['(', ',', ' ', ')']) : c ∉ q.text.toList := by
  have hfields : c ∉ [',', ' '].intercalate (q.fields.map String.toList) := by
    apply not_mem_intercalate
    · simp_all
    · exact List.forall_mem_map.2 fun field hfield => not_mem_of_isField (h field hfield) hc
  rw [toList_text, List.mem_cons, List.mem_append]
  simp_all

theorem fields_eq_of_text_eq {q r : Quad} (hq : q.Framed) (hr : r.Framed) (h : q.text = r.text) :
    q.fields = r.fields := by
  have hcommas {q : Quad} (hq : q.Framed) : ∀ w ∈ q.fields.map String.toList, ',' ∉ w :=
    List.forall_mem_map.2 fun field hfield => not_mem_of_isField (hq field hfield) (by decide)
  have hne {q : Quad} : q.fields.map String.toList ≠ [] := by cases q <;> nofun
  rw [← String.toList_inj, toList_text, toList_text, List.cons_inj_right, List.append_left_inj] at h
  have hlists := fields_injective (hcommas hq) (hcommas hr) hne hne h
  exact List.map_injective_iff.2 (fun _ _ => String.toList_injective) hlists

end Quad

/-! ## Quads with the same fields -/

/-- The same test on operands that are written alike. -/
inductive Test.Alike : Test → Test → Prop
  | always : Alike .always .always
  | isZero {x x' : Operand} (operand : x.text = x'.text) : Alike (.isZero x) (.isZero x')
  | isNonzero {x x' : Operand} (operand : x.text = x'.text) : Alike (.isNonzero x) (.isNonzero x')
  | compare {c : Comparison} {x x' y y' : Operand} (left : x.text = x'.text)
      (right : y.text = y'.text) :
      Alike (.compare c x y) (.compare c x' y')

/-- The same instruction on operands that are written alike. -/
inductive Quad.Alike : Quad → Quad → Prop
  | operate {operation : Operation} {x x' z z' : Operand} {y y' : Option Operand}
      (left : x.text = x'.text) (right : y.map Operand.text = y'.map Operand.text)
      (result : z.text = z'.text) :
      Alike (.operate operation x y z) (.operate operation x' y' z')
  | jump {t t' : Test} {target : Target} (test : t.Alike t') :
      Alike (.jump t target) (.jump t' target)

theorem Comparison.ofSymbol?_symbol (c : Comparison) : ofSymbol? c.symbol = some c := by
  cases c <;> decide

theorem Operation.symbol_injective : Function.Injective symbol := by
  rintro (_ | op) (_ | op') h
  · rfl
  · cases op' <;> exact absurd h (by decide)
  · cases op <;> exact absurd h (by decide)
  · have hop : op.symbol = op'.symbol := h
    have hread : some op = some op' := by rw [← op.ofSymbol?_symbol, hop, op'.ofSymbol?_symbol]
    rw [Option.some.inj hread]

theorem Target.text_injective : Function.Injective text := by
  have hne (address : Address) : Target.unresolved.text ≠ (Target.to address).text := by
    intro h
    have hmem : '?' ∈ (Target.to address).text.toList := h ▸ .head _
    exact absurd (isDigit_of_mem_repr hmem) (by decide)
  intro t t' h
  match t, t' with
  | .unresolved, .unresolved => rfl
  | .unresolved, .to address => exact absurd h (hne address)
  | .to address, .unresolved => exact absurd h.symm (hne address)
  | .to address, .to address' => exact congrArg Target.to (eq_of_repr_eq h)

theorem Comparison.symbol_injective : Function.Injective symbol := by
  intro c c' h
  apply Option.some.inj
  rw [← c.ofSymbol?_symbol, h, c'.ofSymbol?_symbol]

theorem Test.mnemonic_compare_ne (c : Comparison) (x y : Operand) :
    ∀ m ∈ ["j", "jez", "jnz"], (Test.compare c x y).mnemonic ≠ m := by
  show ∀ m ∈ ["j", "jez", "jnz"], "j" ++ c.symbol ≠ m
  cases c <;> decide

theorem Test.alike_of_mnemonic_eq {t t' : Test} (h : t.mnemonic = t'.mnemonic)
    (hleft : Quad.operandText t.operands.1 = Quad.operandText t'.operands.1)
    (hright : Quad.operandText t.operands.2 = Quad.operandText t'.operands.2) : t.Alike t' := by
  match t, t' with
  | .always, .always => exact .always
  | .isZero x, .isZero x' => exact .isZero hleft
  | .isNonzero x, .isNonzero x' => exact .isNonzero hleft
  | .compare c x y, .compare c' x' y' =>
    obtain rfl := Comparison.symbol_injective ((String.append_right_inj "j").1 h)
    exact .compare hleft hright
  | .compare c x y, .always | .compare c x y, .isZero _ | .compare c x y, .isNonzero _ =>
    exact absurd h (mnemonic_compare_ne c x y _ (by simp [mnemonic]))
  | .always, .compare c x y | .isZero _, .compare c x y | .isNonzero _, .compare c x y =>
    exact absurd h.symm (mnemonic_compare_ne c x y _ (by simp [mnemonic]))
  | .always, .isZero _ | .always, .isNonzero _
  | .isZero _, .always | .isZero _, .isNonzero _
  | .isNonzero _, .always | .isNonzero _, .isZero _ => simp [mnemonic] at h

theorem Operation.symbol_ne_mnemonic (operation : Operation) (test : Test) :
    operation.symbol ≠ test.mnemonic := by
  have hj : test.mnemonic.toList.head? = some 'j' := by
    cases test <;> simp [Test.mnemonic]
  intro h
  rw [← h] at hj
  cases operation with
  | copy => exact absurd hj (by decide)
  | apply op => cases op <;> exact absurd hj (by decide)

namespace Quad

theorem alike_of_fields_eq {q r : Quad} (hq : q.Regular) (hr : r.Regular)
    (h : q.fields = r.fields) : q.Alike r := by
  match q, r with
  | .operate operation x y z, .operate operation' x' y' z' =>
    simp only [fields, List.cons.injEq, and_true] at h
    obtain ⟨hsymbol, hleft, hright, hresult⟩ := h
    obtain rfl := Operation.symbol_injective hsymbol
    refine .operate hleft ?_ hresult
    -- a filler for no operand may be written like a name, so it is the operation that tells if
    -- there is an operand
    cases operation with
    | copy => rw [hq, hr]
    | apply op =>
      obtain ⟨y, rfl⟩ := Option.isSome_iff_exists.1 hq
      obtain ⟨y', rfl⟩ := Option.isSome_iff_exists.1 hr
      exact congrArg some hright
  | .jump t target, .jump t' target' =>
    simp only [fields, List.cons.injEq, and_true] at h
    obtain ⟨hmnemonic, hleft, hright, htarget⟩ := h
    obtain rfl := Target.text_injective htarget
    exact .jump (Test.alike_of_mnemonic_eq hmnemonic hleft hright)
  | .operate operation _ _ _, .jump t _ =>
    exact absurd (List.cons.inj h).1 (operation.symbol_ne_mnemonic t)
  | .jump t _, .operate operation _ _ _ =>
    exact absurd (List.cons.inj h).1.symm (operation.symbol_ne_mnemonic t)

theorem operandText_eq (x : Option Operand) : operandText x = (x.map Operand.text).getD "_" := by
  cases x <;> rfl

theorem Alike.fields_eq {q r : Quad} (h : q.Alike r) : q.fields = r.fields := by
  cases h with
  | operate left right result =>
    rw [fields, fields, left, operandText_eq, right, ← operandText_eq, result]
  | jump test =>
    cases test with
    | always => rfl
    | isZero operand | isNonzero operand =>
      simp only [fields, Test.mnemonic, Test.operands, operandText, operand]
    | compare left right =>
      simp only [fields, Test.mnemonic, Test.operands, operandText, left, right]

theorem text_eq_iff {q r : Quad} (hq : q.MadeOf Operand.Sourced) (hr : r.MadeOf Operand.Sourced) :
    q.text = r.text ↔ q.Alike r := by
  constructor
  · intro h
    have hfields :=
      fields_eq_of_text_eq (framed_of_sourced hq.operands) (framed_of_sourced hr.operands) h
    exact alike_of_fields_eq hq.regular hr.regular hfields
  · intro h
    rw [text, text, h.fields_eq]

end Quad

/-! ## Listings -/

namespace Listing

/-- The lines of a listing, with its addresses as `number` writes them. -/
def lines (number : Address → String) (l : Listing) : List (List Char) :=
  l.quads.zipIdx.map fun (q, address) => (number address).toList ++ '\t' :: q.text.toList

theorem toList_textWith (number : Address → String) (l : Listing) :
    (l.textWith number).toList = (l.lines number).flatMap (· ++ ['\n']) := by
  simp [textWith, lines, List.flatMap_map]

theorem getElem?_lines (number : Address → String) (l : Listing) (address : Address) :
    (l.lines number)[address]? =
      l.quads[address]?.map fun q => (number address).toList ++ '\t' :: q.text.toList := by
  simp [lines, List.getElem?_zipIdx, Function.comp_def]

theorem not_mem_lines {l : Listing} (h : ∀ q ∈ l.quads, q.Framed) {c : Char}
    (hc : isFieldChar c = false) (hmark : c ∉ ['\t', '(', ',', ' ', ')']) :
    ∀ line ∈ l.lines Nat.repr, c ∉ line := by
  intro line hline
  obtain ⟨⟨q, address⟩, hq, rfl⟩ := List.mem_map.1 hline
  have hquad := h q (List.fst_mem_of_mem_zipIdx hq)
  rw [List.mem_cons, not_or] at hmark
  rw [List.mem_append, List.mem_cons]
  rintro (hmem | hmem | hmem)
  · exact not_mem_of_isField (isField_repr address) hc hmem
  · exact hmark.1 hmem
  · exact hquad.not_mem_text hc hmark.2 hmem

theorem lines_eq_iff (number : Address → String) {l₁ l₂ : Listing} :
    l₁.lines number = l₂.lines number ↔ l₁.quads.map Quad.text = l₂.quads.map Quad.text := by
  rw [List.ext_getElem?_iff, List.ext_getElem?_iff]
  refine forall_congr' fun address => ?_
  rw [getElem?_lines, getElem?_lines, List.getElem?_map, List.getElem?_map]
  cases l₁.quads[address]? <;> cases l₂.quads[address]? <;> simp [String.toList_inj]

theorem text_eq_iff {l₁ l₂ : Listing} (h₁ : ∀ q ∈ l₁.quads, q.Framed)
    (h₂ : ∀ q ∈ l₂.quads, q.Framed) :
    l₁.text = l₂.text ↔ l₁.quads.map Quad.text = l₂.quads.map Quad.text := by
  rw [← lines_eq_iff Nat.repr, ← String.toList_inj, text, text, toList_textWith, toList_textWith]
  constructor
  · intro h
    have hsplit := congrArg (List.splitOn '\n') h
    rw [splitOn_lines (not_mem_lines h₁ (by decide) (by decide)),
      splitOn_lines (not_mem_lines h₂ (by decide) (by decide))] at hsplit
    exact List.append_cancel_right hsplit
  · exact congrArg _

end Listing

theorem compile_framed {source : String} {l : Listing} (h : compile source = .ok l) :
    ∀ q ∈ l.quads, q.Framed :=
  fun q hq => Quad.framed_of_sourced (compile_sourced h q hq).operands

/-- Accepted scripts have listings with the same text exactly if these have the same instructions up
to operands that are written alike. -/
theorem compile_text_eq_iff {source₁ source₂ : String} {l₁ l₂ : Listing}
    (h₁ : compile source₁ = .ok l₁) (h₂ : compile source₂ = .ok l₂) :
    l₁.text = l₂.text ↔ l₁.size = l₂.size ∧ ∀ (address : Address) (q₁ q₂ : Quad),
      l₁.quads[address]? = some q₁ → l₂.quads[address]? = some q₂ → q₁.Alike q₂ := by
  have hmade₁ := compile_sourced h₁
  have hmade₂ := compile_sourced h₂
  rw [Listing.text_eq_iff (compile_framed h₁) (compile_framed h₂), ← List.forall₂_eq_eq_eq,
    List.forall₂_map_left_iff, List.forall₂_map_right_iff, List.forall₂_iff_get]
  refine and_congr Iff.rfl ⟨fun h address q₁ q₂ hq₁ hq₂ => ?_, fun h address hlt₁ hlt₂ => ?_⟩
  · have hquad₁ := hmade₁ q₁ (List.mem_of_getElem? hq₁)
    have hquad₂ := hmade₂ q₂ (List.mem_of_getElem? hq₂)
    obtain ⟨hlt₁, rfl⟩ := List.getElem?_eq_some_iff.1 hq₁
    obtain ⟨hlt₂, rfl⟩ := List.getElem?_eq_some_iff.1 hq₂
    exact (Quad.text_eq_iff hquad₁ hquad₂).1 (h address hlt₁ hlt₂)
  · have hquad₁ := hmade₁ _ (List.get_mem _ ⟨address, hlt₁⟩)
    have hquad₂ := hmade₂ _ (List.get_mem _ ⟨address, hlt₂⟩)
    refine (Quad.text_eq_iff hquad₁ hquad₂).2 (h address _ _ ?_ ?_)
    · exact List.getElem?_eq_getElem hlt₁
    · exact List.getElem?_eq_getElem hlt₂

/-- The listing of a script that declares `inf`, and then a name that is written
like a missing operand. -/
def fillerListing (x : Operand) : Listing :=
  ⟨[.operate .copy (.number (.ofDecimal false ⟨1, 0⟩)) none (.name "inf"),
    .operate .copy x none (.name "_")]⟩

theorem compile_text_eq_iff_filler :
    compile "var inf = 1; var _ = inf;" = .ok (fillerListing (.name "inf")) ∧
      compile "var inf = 1; var _ = 1e999;" = .ok (fillerListing (.number (.infinite false))) ∧
      fillerListing (.name "inf") ≠ fillerListing (.number (.infinite false)) ∧
      (fillerListing (.name "inf")).text = (fillerListing (.number (.infinite false))).text ∧
      ∀ (address : Address) (q₁ q₂ : Quad),
        (fillerListing (.name "inf")).quads[address]? = some q₁ →
        (fillerListing (.number (.infinite false))).quads[address]? = some q₂ → q₁.Alike q₂ := by
  have h₁ : compile "var inf = 1; var _ = inf;" = .ok (fillerListing (.name "inf")) :=
    eq_ok_of_toOption (by decide +kernel)
  have h₂ :
      compile "var inf = 1; var _ = 1e999;" = .ok (fillerListing (.number (.infinite false))) :=
    eq_ok_of_toOption (by decide +kernel)
  have htext :
      (fillerListing (.name "inf")).text = (fillerListing (.number (.infinite false))).text := by
    decide +kernel
  exact ⟨h₁, h₂, by decide +kernel, htext, ((compile_text_eq_iff h₁ h₂).1 htext).2⟩

end Quadcode
