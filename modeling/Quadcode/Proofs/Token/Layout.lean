import Quadcode.Proofs.Token.Lexing

/-!
# Tokens and the gaps around them

A source is its tokens with gaps around them, and each token stands where its span says
(`lex_loses_nothing`). What the gaps are does not matter as long as they keep the tokens apart: with
other gaps the same tokens are found (`lex_layout_irrelevant`). Both rest on `Token.Spelled`, which
says of a list of tokens alone that each of them belongs to its class behind the one before it.
-/

namespace Quadcode

/-! ## Places -/

theorem Position.offset_advance (p : Position) (cs : List Char) :
    (p.advance cs).offset = p.offset + (String.ofList cs).utf8ByteSize := by
  induction cs generalizing p with
  | nil => simp
  | cons c cs ih =>
    have hstep : (p.step c).offset = p.offset + c.utf8Size := by
      unfold step
      split
      next h => rw [h]; rfl
      next => rfl
    rw [advance_cons, ih, hstep, String.ofList_cons, String.utf8ByteSize_append,
      String.utf8ByteSize_singleton, Nat.add_assoc]

/-- The span is the stretch of `text` in the source, from a boundary between
characters to another one. -/
def Span.Covers (span : Span) (source text : String) : Prop :=
  ∃ before after, source = before ++ text ++ after ∧ span.start = before.utf8ByteSize ∧
    span.stop = (before ++ text).utf8ByteSize

namespace Token

/-! ## Lists of tokens that can be lexed -/

theorem Digits.newline_not_mem {ds : List Char} (h : Digits ds) : '\n' ∉ ds :=
  fun hn => absurd (h.2 _ hn) (by decide)

theorem Unsigned.newline_not_mem {w : List Char} (h : Unsigned w) : '\n' ∉ w := by
  obtain ⟨mantissa, exponent⟩ := h
  have hmantissa : ∀ {ms : List Char}, Mantissa ms → '\n' ∉ ms
    | _, .whole digits => digits.newline_not_mem
    | _, .mixed digits fraction => by simp [digits.newline_not_mem, fraction.newline_not_mem]
    | _, .fraction fraction => by simp [fraction.newline_not_mem]
  have hexponent : ∀ {es : List Char}, Exponent es → '\n' ∉ es
    | _, .nil => by simp
    | _, .unsigned marks digits => by obtain rfl | rfl := marks <;> simp [digits.newline_not_mem]
    | _, .signed marks signs digits => by
      obtain rfl | rfl := marks <;> obtain rfl | rfl := signs <;> simp [digits.newline_not_mem]
  simp [hmantissa mantissa, hexponent exponent]

/-- No token is empty, and none goes over the end of a line. -/
theorem Kind.Spells.inLine {afterOperand : Bool} {k : Kind} {w : List Char}
    (h : k.Spells afterOperand w) (hk : k.isTrivia = false) : w ≠ [] ∧ '\n' ∉ w := by
  have hword {v : List Char} (hv : Word v) : v ≠ [] ∧ '\n' ∉ v := by
    refine ⟨?_, fun hn => absurd (hv.isWordChar _ hn) (by decide)⟩
    obtain ⟨-, -⟩ := hv
    exact List.cons_ne_nil _ _
  have hunsigned {v : List Char} (hv : Unsigned v) : v ≠ [] ∧ '\n' ∉ v := by
    refine ⟨?_, hv.newline_not_mem⟩
    obtain ⟨c, cs, rfl, -⟩ := hv.exists_cons
    exact List.cons_ne_nil c cs
  cases k with
  | comment => cases hk
  | whitespace => cases hk
  | number =>
    obtain hw | ⟨-, v, hv, rfl⟩ := h
    · exact hunsigned hw
    · simp [(hunsigned hv).2]
  | keyword =>
    obtain ⟨s, hs, rfl⟩ := h
    exact hword (word_of_mem_keywords s hs)
  | operator =>
    obtain ⟨op, rfl⟩ := h
    cases op <;> decide
  | identifier => exact hword h.1
  | assignment =>
    obtain rfl := h
    decide
  | bracket =>
    obtain ⟨s, hs, rfl⟩ := h
    revert s
    decide
  | separator =>
    obtain rfl := h
    decide

theorem Kind.Spells.weaken {afterOperand : Bool} {k : Kind} {w : List Char}
    (h : k.Spells afterOperand w) : k.Spells false w := by
  cases k with
  | number => exact h.imp_right fun h => ⟨rfl, h.2⟩
  | comment | whitespace | keyword | operator | identifier | assignment | bracket | separator =>
    exact h

/-- No token is trivia, and each belongs to its class behind the one before it; the first one stands
behind an operand or not. -/
def Spelled : Bool → List Token → Prop
  | _, [] => True
  | afterOperand, t :: ts =>
    t.kind.isTrivia = false ∧ t.kind.Spells afterOperand t.text.toList ∧ Spelled t.endsOperand ts

theorem Cut.spelled {afterOperand : Bool} {p : Position} {cs : List Char} {ts : List Token}
    (h : Cut afterOperand p cs ts) : Spelled afterOperand ts := by
  induction h with
  | nil => trivial
  | trivia _ _ _ ih => exact ih
  | @token afterOperand p k w rest ts lexeme kind _ ih =>
    obtain ⟨v, rest', heq, hlength, hspells⟩ := lexeme?_spells lexeme
    obtain rfl : w = v := (List.append_inj heq hlength).1
    refine ⟨kind, ?_, ih⟩
    rw [String.toList_ofList]
    exact hspells

theorem Spelled.of_mem {afterOperand : Bool} {ts : List Token} (h : Spelled afterOperand ts) :
    ∀ t ∈ ts, t.kind.isTrivia = false ∧ t.kind.Spells false t.text.toList := by
  induction ts generalizing afterOperand with
  | nil => simp
  | cons t ts ih =>
    obtain ⟨hk, hspells, htail⟩ := h
    exact List.forall_mem_cons.2 ⟨⟨hk, hspells.weaken⟩, ih htail⟩

/-! ## Gaps -/

/-- Texts with gaps around them: a gap in front of each, and one behind the last. -/
def interleave : List String → List String → String
  | gap :: gaps, text :: texts => gap ++ text ++ interleave gaps texts
  | gap :: _, [] => gap
  | [], _ => ""

/-- The gaps around a number of tokens: one more than the tokens, and only the last
one can end in a comment. -/
def Layout : List String → Nat → Prop
  | [], _ => False
  | gap :: gaps, 0 => Gap true gap.toList ∧ gaps = []
  | gap :: gaps, count + 1 => Gap false gap.toList ∧ Layout gaps count

theorem interleave_append (v gap : String) (gaps texts : List String) :
    interleave ((v ++ gap) :: gaps) texts = v ++ interleave (gap :: gaps) texts := by
  cases texts <;> simp [interleave, String.append_assoc]

theorem Gap.blanks {last : Bool} {w g : List Char} (hw : ∀ c ∈ w, isBlank c) (h : Gap last g) :
    Gap last (w ++ g) := by
  induction w with
  | nil => exact h
  | cons c w ih =>
    rw [List.forall_mem_cons] at hw
    exact .blank hw.1 (ih hw.2)

theorem Gap.line {last : Bool} {body g : List Char} (hbody : '\n' ∉ body) (h : Gap last g)
    (hg : g.head? = some '\n' ∨ g = [] ∧ last = true) : Gap last ('/' :: '/' :: body ++ g) := by
  obtain hg | ⟨rfl, hlast⟩ := hg
  · obtain ⟨cs, rfl⟩ := List.head?_eq_some_iff.1 hg
    exact .comment hbody h
  · rw [List.append_nil]
    exact .unended hlast hbody

theorem Layout.exists_cons {gaps : List String} {count : Nat} (h : Layout gaps count) :
    ∃ gap rest, gaps = gap :: rest := by
  cases gaps with
  | nil => cases h
  | cons gap rest => exact ⟨gap, rest, rfl⟩

theorem Layout.prepend {v gap : String} {gaps : List String} {count : Nat}
    (h : Layout (gap :: gaps) count)
    (hv : ∀ last, (last = true ↔ count = 0) → Gap last gap.toList → Gap last (v ++ gap).toList) :
    Layout ((v ++ gap) :: gaps) count := by
  cases count with
  | zero => exact ⟨hv true (by simp) h.1, h.2⟩
  | succ count => exact ⟨hv false (by simp) h.1, h.2⟩

/-- Where a gap is followed by nothing but the end of a line, or by the end of the
source, it begins with it. -/
theorem head_gap {gap : String} {gaps : List String} {ts : List Token}
    (hts : ∀ t ∈ ts, t.text.toList ≠ [] ∧ '\n' ∉ t.text.toList)
    (hr : ∀ c, (interleave (gap :: gaps) (ts.map Token.text)).toList.head? = some c → c = '\n') :
    gap.toList.head? = some '\n' ∨ gap.toList = [] ∧ ts = [] := by
  cases hgap : gap.toList with
  | cons c cs =>
    left
    rw [List.head?_cons, hr c]
    cases ts <;> simp [interleave, hgap]
  | nil =>
    right
    refine ⟨rfl, ?_⟩
    cases ts with
    | nil => rfl
    | cons t ts =>
      obtain ⟨hne, hline⟩ := hts t (.head _)
      obtain ⟨d, ds, htext⟩ := List.exists_cons_of_ne_nil hne
      have hd : d = '\n' := hr d (by simp [interleave, hgap, htext])
      exact absurd (by rw [htext, hd]; exact .head _) hline

/-- Blanks or a comment in front of a text belong to its first gap. -/
theorem Layout.trivia {afterOperand : Bool} {k : Kind} {w : List Char} {gap : String}
    {gaps : List String} {ts : List Token} (h : Layout (gap :: gaps) ts.length)
    (lexeme : lexeme? afterOperand (w ++ (interleave (gap :: gaps) (ts.map Token.text)).toList) =
      some (k, w.length))
    (kind : k.isTrivia) (hts : ∀ t ∈ ts, t.text.toList ≠ [] ∧ '\n' ∉ t.text.toList) :
    Layout ((String.ofList w ++ gap) :: gaps) ts.length := by
  refine h.prepend fun last hlast hgap => ?_
  rw [String.toList_append, String.toList_ofList]
  cases k with
  | comment =>
    obtain ⟨body, rest, heq, hbody, hline, hrest⟩ := begins_comment (lexeme?_eq_some_iff.1 lexeme).1
    obtain ⟨rfl, rfl⟩ := List.append_inj heq hbody
    refine hgap.line hline ((head_gap hts hrest).imp_right fun h => ⟨h.1, hlast.2 ?_⟩)
    rw [h.2]
    rfl
  | whitespace =>
    obtain ⟨v, rest, heq, hv, -, hblank⟩ := lexeme?_spells lexeme
    obtain ⟨rfl, -⟩ := List.append_inj heq hv
    exact hgap.blanks hblank
  | number | keyword | operator | identifier | assignment | bracket | separator => cases kind

/-- A text that is cut into tokens is these tokens with gaps around them, and they stand
where their spans say. -/
theorem Cut.exists_gaps {afterOperand : Bool} {p : Position} {cs : List Char} {ts : List Token}
    (h : Cut afterOperand p cs ts) :
    ∃ gaps, Layout gaps ts.length ∧ (interleave gaps (ts.map Token.text)).toList = cs ∧
      ∀ i t, ts[i]? = some t → t.span.start =
        p.offset + (interleave (gaps.take (i + 1)) ((ts.map Token.text).take i)).utf8ByteSize := by
  induction h with
  | nil => exact ⟨[""], ⟨.nil, rfl⟩, rfl, by simp⟩
  | @trivia afterOperand p k w rest ts lexeme kind tail ih =>
    obtain ⟨gaps, hlayout, rfl, hstart⟩ := ih
    obtain ⟨gap, gaps, rfl⟩ := hlayout.exists_cons
    have hts : ∀ t ∈ ts, t.text.toList ≠ [] ∧ '\n' ∉ t.text.toList := by
      intro t ht
      obtain ⟨hk, hspells⟩ := tail.spelled.of_mem t ht
      exact hspells.inLine hk
    refine ⟨(String.ofList w ++ gap) :: gaps, hlayout.trivia lexeme kind hts, ?_, fun i t ht => ?_⟩
    · rw [interleave_append, String.toList_append, String.toList_ofList]
    · rw [hstart i t ht, Position.offset_advance, List.take_succ_cons, List.take_succ_cons,
        interleave_append, String.utf8ByteSize_append, Nat.add_assoc]
  | @token afterOperand p k w rest ts lexeme kind _ ih =>
    obtain ⟨gaps, hlayout, htext, hstart⟩ := ih
    refine ⟨"" :: gaps, ⟨.nil, hlayout⟩, by simp [interleave, htext], fun i t ht => ?_⟩
    cases i with
    | zero =>
      obtain rfl := Option.some.inj ht
      simp [interleave, Position.spanOf]
    | succ i =>
      have hi := hstart i t (by simpa using ht)
      rw [hi, Position.offset_advance]
      simp [interleave, Nat.add_assoc]

theorem interleave_split {gaps texts : List String} (h : Layout gaps texts.length) {i : Nat}
    {text : String} (hi : texts[i]? = some text) :
    interleave gaps texts =
      interleave (gaps.take (i + 1)) (texts.take i) ++ text ++
        interleave (gaps.drop (i + 1)) (texts.drop (i + 1)) := by
  induction texts generalizing gaps i with
  | nil => cases hi
  | cons first texts ih =>
    obtain ⟨gap, gaps, rfl⟩ := h.exists_cons
    cases i with
    | zero =>
      obtain rfl := Option.some.inj hi
      rfl
    | succ i =>
      have htail := ih h.2 (by simpa using hi)
      simp only [List.take_succ_cons, List.drop_succ_cons, interleave, htail, String.append_assoc]

theorem Cut.stop_eq {afterOperand : Bool} {p : Position} {cs : List Char} {ts : List Token}
    (h : Cut afterOperand p cs ts) :
    ∀ t ∈ ts, t.span.stop = t.span.start + t.text.utf8ByteSize := by
  induction h with
  | nil => simp
  | trivia _ _ _ ih => exact ih
  | token _ _ _ ih => exact List.forall_mem_cons.2 ⟨Position.offset_advance _ _, ih⟩

theorem Cut.offset_le {afterOperand : Bool} {p : Position} {cs : List Char} {ts : List Token}
    (h : Cut afterOperand p cs ts) : ∀ t ∈ ts, p.offset ≤ t.span.start := by
  induction h with
  | nil => simp
  | trivia _ _ _ ih =>
    intro t ht
    have := ih t ht
    rw [Position.offset_advance] at this
    omega
  | token _ _ _ ih =>
    refine List.forall_mem_cons.2 ⟨Nat.le_refl _, fun t ht => ?_⟩
    have := ih t ht
    rw [Position.offset_advance] at this
    omega

theorem Cut.inOrder {afterOperand : Bool} {p : Position} {cs : List Char} {ts : List Token}
    (h : Cut afterOperand p cs ts) : ts.Pairwise fun t u => t.span.stop ≤ u.span.start := by
  induction h with
  | nil => exact .nil
  | trivia _ _ _ ih => exact ih
  | token _ _ tail ih => exact .cons tail.offset_le ih

end Token

open Token

theorem lex_eq_ok_iff {source : String} {ts : List Token} :
    lex source = .ok ts ↔ Cut false {} source.toList ts :=
  lexFrom_eq_ok_iff

/-- A source that is lexed is its tokens with gaps around them, and nothing else. The tokens stand
one after the other where their spans say, none of them is trivia or goes over the end of a line,
and each belongs to its class. -/
theorem lex_loses_nothing {source : String} {ts : List Token} (h : lex source = .ok ts) :
    (∃ gaps, Layout gaps ts.length ∧ source = interleave gaps (ts.map Token.text) ∧
      ∀ i t, ts[i]? = some t →
        t.span.start = (interleave (gaps.take (i + 1)) ((ts.map Token.text).take i)).utf8ByteSize) ∧
    (∀ t ∈ ts, t.span.Covers source t.text ∧ t.span.start < t.span.stop ∧ t.kind.isTrivia = false ∧
      '\n' ∉ t.text.toList ∧ t.kind.Spells false t.text.toList) ∧
    ts.Pairwise fun t u => t.span.stop ≤ u.span.start := by
  have hcut := lex_eq_ok_iff.1 h
  obtain ⟨gaps, hlayout, htext, hstart⟩ := hcut.exists_gaps
  have hsource : source = interleave gaps (ts.map Token.text) := String.toList_injective htext.symm
  have hstart' (i : Nat) (t : Token) (ht : ts[i]? = some t) :
      t.span.start =
        (interleave (gaps.take (i + 1)) ((ts.map Token.text).take i)).utf8ByteSize := by
    rw [hstart i t ht, Nat.zero_add]
  refine ⟨⟨gaps, hlayout, hsource, hstart'⟩, fun t ht => ?_, hcut.inOrder⟩
  obtain ⟨hk, hspells⟩ := hcut.spelled.of_mem t ht
  obtain ⟨hne, hline⟩ := hspells.inLine hk
  have hstop := hcut.stop_eq t ht
  refine ⟨?_, ?_, hk, hline, hspells⟩
  · obtain ⟨i, hi⟩ := List.getElem?_of_mem ht
    have htexts : (ts.map Token.text)[i]? = some t.text := by
      rw [List.getElem?_map, hi, Option.map_some]
    rw [← List.length_map (f := Token.text)] at hlayout
    refine ⟨_, _, hsource.trans (interleave_split hlayout htexts), hstart' i t hi, ?_⟩
    rw [hstop, hstart' i t hi, String.utf8ByteSize_append]
  · have hpos : t.text.utf8ByteSize ≠ 0 :=
      fun h0 => hne (by rw [String.utf8ByteSize_eq_zero_iff.1 h0]; rfl)
    omega

/-- A text whose tokens stand close together, and which ends inside a comment. -/
def tightSource : String := "x=-1;//é\nprint(x-1);// -1"

/-- The tokens of `tightSource`. -/
def tightTokens : List Token :=
  [⟨.identifier, "x", 0, 1, 0, 0⟩, ⟨.assignment, "=", 1, 2, 0, 1⟩, ⟨.number, "-1", 2, 4, 0, 2⟩,
    ⟨.separator, ";", 4, 5, 0, 4⟩, ⟨.keyword, "print", 10, 15, 1, 0⟩, ⟨.bracket, "(", 15, 16, 1, 5⟩,
    ⟨.identifier, "x", 16, 17, 1, 6⟩, ⟨.operator, "-", 17, 18, 1, 7⟩, ⟨.number, "1", 18, 19, 1, 8⟩,
    ⟨.bracket, ")", 19, 20, 1, 9⟩, ⟨.separator, ";", 20, 21, 1, 10⟩]

theorem lex_tightSource : lex tightSource = .ok tightTokens := by
  decide +kernel

theorem lex_loses_nothing_tight :
    lex tightSource = .ok tightTokens ∧
      (∃ gaps, Layout gaps 11 ∧ tightSource = interleave gaps (tightTokens.map Token.text)) ∧
      (⟨10, 15, 1, 0⟩ : Span).Covers tightSource "print" := by
  obtain ⟨⟨gaps, hlayout, hsource, -⟩, htokens, -⟩ := lex_loses_nothing lex_tightSource
  have hprint := htokens ⟨.keyword, "print", 10, 15, 1, 0⟩ (by decide)
  exact ⟨lex_tightSource, ⟨gaps, hlayout, hsource⟩, hprint.1⟩

/-! ## Other gaps -/

namespace Token

/-- The gap begins with a blank. -/
def blankFirst (gap : String) : Bool :=
  gap.toList.head?.any isBlank

/-- The gaps keep apart what stands before them: each begins with a blank, but the
last one may be empty. -/
def Separating : List String → Prop
  | [] => True
  | [gap] => blankFirst gap ∨ gap = ""
  | gap :: gaps => blankFirst gap ∧ Separating gaps

theorem ends_of_blankFirst {gap : String} (h : blankFirst gap) (gaps texts : List String) :
    Ends (interleave (gap :: gaps) texts).toList := by
  obtain ⟨c, hhead, hc⟩ := (Option.any_eq_true _ _).1 h
  intro d hd
  have hsame : (interleave (gap :: gaps) texts).toList.head? = some c := by
    cases texts <;> simp [interleave, hhead]
  rw [← Option.some.inj (hsame.symm.trans hd)]
  exact eq_false_of_isBlank rfl hc

theorem ends_of_separating {gaps texts : List String} (hlayout : Layout gaps texts.length)
    (hs : Separating gaps) : Ends (interleave gaps texts).toList := by
  match gaps, texts with
  | [], _ => cases hlayout
  | [gap], [] =>
    obtain hblank | rfl := hs
    · exact ends_of_blankFirst hblank [] []
    · simp [interleave, Ends]
  | [_], _ :: _ => cases hlayout.2
  | gap :: next :: gaps, texts => exact ends_of_blankFirst hs.1 _ texts

theorem Separating.tail {gaps : List String} (h : Separating gaps) : Separating gaps.tail := by
  match gaps with
  | [] => trivial
  | [_] => trivial
  | _ :: _ :: _ => exact h.2

/-- Tokens that belong to their classes are found again, whatever gaps keep them apart. -/
theorem Spelled.lexed {afterOperand : Bool} {ts : List Token} (h : Spelled afterOperand ts)
    {gaps : List String} (hlayout : Layout gaps ts.length) (hs : Separating gaps.tail) :
    Lexed afterOperand (interleave gaps (ts.map Token.text)).toList (ts.map bare) := by
  induction ts generalizing afterOperand gaps with
  | nil =>
    obtain ⟨gap, gaps, rfl⟩ := hlayout.exists_cons
    rw [List.map_nil, interleave, ← List.append_nil gap.toList]
    exact lexed_nil.gap hlayout.1 fun _ => rfl
  | cons t ts ih =>
    obtain ⟨gap, gaps, rfl⟩ := hlayout.exists_cons
    obtain ⟨hgap, hlayout⟩ := hlayout
    obtain ⟨hk, hspells, htail⟩ := h
    have hends : Ends (interleave gaps (ts.map Token.text)).toList :=
      ends_of_separating (by rwa [List.length_map]) hs
    have htoken := (ih htail hlayout hs.tail).token hspells hk (.inr (.inr hends))
    rw [List.map_cons, interleave, String.toList_append, String.toList_append, List.append_assoc]
    exact htoken.gap hgap fun h => nomatch h

/-- One blank between any two of some texts is a layout of them. -/
theorem exists_layout_intercalate (texts : List String) :
    ∃ gaps, Layout ("" :: gaps) texts.length ∧ Separating gaps ∧
      interleave ("" :: gaps) texts = " ".intercalate texts := by
  induction texts with
  | nil => exact ⟨[], ⟨.nil, rfl⟩, trivial, rfl⟩
  | cons text texts ih =>
    obtain ⟨gaps, hlayout, hs, htext⟩ := ih
    cases texts with
    | nil =>
      exact ⟨[""], ⟨.nil, .nil, rfl⟩, .inr rfl, by simp [interleave, String.intercalate_singleton]⟩
    | cons next texts =>
      obtain ⟨gap, gaps, rfl⟩ := hlayout.2.exists_cons
      refine ⟨" " :: gap :: gaps, ⟨.nil, .blank rfl .nil, hlayout.2⟩, ⟨rfl, hs⟩, ?_⟩
      rw [String.intercalate_cons_cons, ← htext]
      simp [interleave, String.append_assoc]

end Token

/-- Layout does not matter: the texts of the tokens of a source, with other gaps that keep them
apart, are lexed into the same tokens. One blank between them is enough. -/
theorem lex_layout_irrelevant {source : String} {ts : List Token} (h : lex source = .ok ts) :
    (∀ gaps, Layout gaps ts.length → Separating gaps.tail →
      ∃ us, lex (interleave gaps (ts.map Token.text)) = .ok us ∧
        us.map Token.bare = ts.map Token.bare) ∧
    ∃ us, lex (" ".intercalate (ts.map Token.text)) = .ok us ∧
      us.map Token.bare = ts.map Token.bare := by
  have hspelled := (lex_eq_ok_iff.1 h).spelled
  refine ⟨fun gaps hlayout hs => hspelled.lexed hlayout hs {}, ?_⟩
  obtain ⟨gaps, hlayout, hs, htext⟩ := exists_layout_intercalate (ts.map Token.text)
  rw [List.length_map] at hlayout
  rw [← htext]
  exact hspelled.lexed hlayout hs {}

/-- Other gaps for the tokens of `tightSource`: blanks of every kind and
comments, the last one unended. -/
def looseGaps : List String :=
  ["//\n", " ", "\t", "\n//-2\n", " ", "\r\n", "\x0c", " // )\n ", " ", " ", " ", "\n//"]

theorem lex_layout_irrelevant_tight :
    lex tightSource = .ok tightTokens ∧ Layout looseGaps 11 ∧ Separating looseGaps.tail ∧
      (∃ us, lex (interleave looseGaps (tightTokens.map Token.text)) = .ok us ∧
        us.map Token.bare = tightTokens.map Token.bare) ∧
      ∃ us, lex "x = -1 ; print ( x - 1 ) ;" = .ok us ∧
        us.map Token.bare = tightTokens.map Token.bare := by
  have hlayout : Layout looseGaps tightTokens.length := by
    have hline (body : List Char) {rest : List Char} (hbody : '\n' ∉ body)
        (hrest : Gap false rest) :
        Gap false ('/' :: '/' :: body ++ '\n' :: rest) :=
      .comment hbody (.blank rfl hrest)
    have hunended : Gap true ['/', '/'] := .unended rfl List.not_mem_nil
    exact ⟨hline [] (by decide) .nil, .blank rfl .nil, .blank rfl .nil,
      .blank rfl (hline ['-', '2'] (by decide) .nil), .blank rfl .nil, .blank rfl (.blank rfl .nil),
      .blank rfl .nil, .blank rfl (hline [' ', ')'] (by decide) (.blank rfl .nil)), .blank rfl .nil,
      .blank rfl .nil, .blank rfl .nil, .blank rfl hunended, rfl⟩
  have hs : Separating looseGaps.tail := by
    simp [looseGaps, Separating, blankFirst, isBlank]
  obtain ⟨hgaps, hblanks⟩ := lex_layout_irrelevant lex_tightSource
  exact ⟨lex_tightSource, hlayout, hs, hgaps looseGaps hlayout hs, hblanks⟩

end Quadcode
