import Mathlib.Data.List.DropRight
import Quadcode.Proofs.Token.Layout
import Quadcode.SyntaxError

/-!
# Lines and columns

`Span.Marks` says what the span of a text is that stands in a source behind another text: its bytes,
its line, which is the number of line feeds before it, and its column, which counts the bytes from
the last line feed on. The spans that the lexer gives are of this kind: those of tokens
(`lex_marks`), the span behind the last token (`lex_marks_end`), and that of a character with which
no token begins (`lex_marks_error`). In terms of the source and an offset alone, without the text
before it, the same is `Span.Locates` (`lex_locates`).

A column can be counted along a line, as `Position.step` does, or as the distance from where the
line starts, as `Cursor.step` does. The two are the same all along a text
(`Cursor.position_advance`).
-/

namespace Quadcode

/-- The offset right behind the last line feed of the text, zero if there is none. -/
def lineStart (text : String) : Nat :=
  (String.ofList (text.toList.rdropWhile (· != '\n'))).utf8ByteSize

theorem lineStart_append {before text : String} (h : '\n' ∉ text.toList) :
    lineStart (before ++ text) = lineStart before := by
  have hskip : ∀ c ∈ text.toList.reverse, (c != '\n') = true := by
    intro c hc
    exact bne_iff_ne.2 fun heq => h (heq ▸ List.mem_reverse.1 hc)
  simp only [lineStart, List.rdropWhile, String.toList_append, List.reverse_append,
    List.dropWhile_append_of_pos hskip]

theorem lineStart_concat {c : Char} (hc : c ≠ '\n') (cs : List Char) :
    lineStart (String.ofList (cs ++ [c])) = lineStart (String.ofList cs) := by
  rw [String.ofList_append]
  exact lineStart_append (by simpa using hc.symm)

theorem lineStart_concat_lineFeed (cs : List Char) :
    lineStart (String.ofList (cs ++ ['\n'])) = (String.ofList cs).utf8ByteSize + 1 := by
  have hsize : "\n".utf8ByteSize = 1 := rfl
  simp [lineStart, hsize]

namespace Position

theorem line_advance (p : Position) (cs : List Char) :
    (p.advance cs).line = p.line + cs.count '\n' := by
  induction cs generalizing p with
  | nil => rfl
  | cons c cs ih =>
    rw [advance_cons, ih, List.count_cons]
    by_cases hc : c = '\n' <;> simp [step, hc]
    omega

end Position

/-- A count along a text that keeps the start of the line it is in, and not the column. -/
structure Cursor where
  offset : Nat := 0
  line : Nat := 0
  lineStart : Nat := 0
  lineStart_le : lineStart ≤ offset := by omega

namespace Cursor

/-- Behind the character `c`; a line feed begins the next line right behind itself. -/
def step (k : Cursor) (c : Char) : Cursor :=
  if c = '\n' then { offset := k.offset + 1, line := k.line + 1, lineStart := k.offset + 1 }
  else
    { offset := k.offset + c.utf8Size, line := k.line, lineStart := k.lineStart
      lineStart_le := Nat.le_add_right_of_le k.lineStart_le }

/-- Behind the text `cs`. -/
def advance (k : Cursor) (cs : List Char) : Cursor :=
  cs.foldl step k

/-- The position of a cursor, whose column is counted from the start of the line. -/
def position (k : Cursor) : Position :=
  { offset := k.offset, line := k.line, column := k.offset - k.lineStart }

theorem position_step (k : Cursor) (c : Char) : (k.step c).position = k.position.step c := by
  by_cases hc : c = '\n'
  · simp [step, Position.step, position, hc]
  · have hcolumn : k.offset + c.utf8Size - k.lineStart = k.offset - k.lineStart + c.utf8Size :=
      Nat.sub_add_comm k.lineStart_le
    simp [step, Position.step, position, hc, hcolumn]

/-- The column that runs along a text is all the way the distance from the start of the line. -/
theorem position_advance (k : Cursor) (cs : List Char) :
    (k.advance cs).position = k.position.advance cs := by
  induction cs generalizing k with
  | nil => rfl
  | cons c cs ih =>
    rw [Position.advance_cons, ← position_step]
    exact ih (k.step c)

theorem offset_advance (cs : List Char) :
    (({} : Cursor).advance cs).offset = (String.ofList cs).utf8ByteSize := by
  have hoffset := congrArg Position.offset (position_advance {} cs)
  rw [Position.offset_advance] at hoffset
  simpa [position] using hoffset

theorem lineStart_advance (cs : List Char) :
    (({} : Cursor).advance cs).lineStart = Quadcode.lineStart (String.ofList cs) := by
  induction cs using List.reverseRecOn with
  | nil => rfl
  | append_singleton cs c ih =>
    have hsnoc : ({} : Cursor).advance (cs ++ [c]) = (({} : Cursor).advance cs).step c :=
      List.foldl_append
    rw [hsnoc]
    by_cases hc : c = '\n'
    · subst hc
      rw [lineStart_concat_lineFeed, ← offset_advance, step, if_pos rfl]
    · rw [lineStart_concat hc, ← ih, step, if_neg hc]

end Cursor

theorem Position.column_advance (cs : List Char) :
    (({} : Position).advance cs).column + lineStart (String.ofList cs) =
      (String.ofList cs).utf8ByteSize := by
  have hcolumn : (String.ofList cs).utf8ByteSize - lineStart (String.ofList cs) =
      (({} : Position).advance cs).column := by
    rw [← Cursor.lineStart_advance, ← Cursor.offset_advance]
    exact congrArg Position.column (Cursor.position_advance {} cs)
  have hle : lineStart (String.ofList cs) ≤ (String.ofList cs).utf8ByteSize := by
    rw [← Cursor.lineStart_advance, ← Cursor.offset_advance]
    exact (({} : Cursor).advance cs).lineStart_le
  omega

/-- The span belongs to the text that stands in a source right behind `before`. -/
structure Span.Marks (span : Span) (before text : String) : Prop where
  start : span.start = before.utf8ByteSize
  stop : span.stop = (before ++ text).utf8ByteSize
  line : span.line = before.toList.count '\n'
  column : span.column + lineStart before = span.start

theorem Position.marks_spanOf (before text : String) :
    ((({} : Position).advance before.toList).spanOf text.toList).Marks before text where
  start := by simp [spanOf, offset_advance]
  stop := by simp [spanOf, offset_advance]
  line := by simp [spanOf, line_advance]
  column := by
    have hcolumn := column_advance before.toList
    rw [String.ofList_toList] at hcolumn
    simp [spanOf, offset_advance, hcolumn]

namespace Span.Marks

variable {span other : Span} {source before text after middle last : String}

theorem covers (h : span.Marks before text) (hs : source = before ++ text ++ after) :
    span.Covers source text :=
  ⟨before, after, hs, h.start, h.stop⟩

theorem start_eq_stop_iff (h : span.Marks before text) : span.start = span.stop ↔ text = "" := by
  rw [h.start, h.stop, String.utf8ByteSize_append, ← String.utf8ByteSize_eq_zero_iff]
  omega

theorem upTo (h : span.Marks before text) (h' : other.Marks (before ++ text ++ middle) last) :
    (span.upTo other).Marks before (text ++ middle ++ last) where
  start := h.start
  stop := by rw [Span.upTo, h'.stop, String.append_assoc, String.append_assoc, String.append_assoc]
  line := h.line
  column := h.column

/-- The empty span right behind a text that does not go over the end of a line. -/
theorem behind (h : span.Marks before text) (hline : '\n' ∉ text.toList) :
    Marks ⟨span.stop, span.stop, span.line, span.column + text.utf8ByteSize⟩
      (before ++ text) "" where
  start := h.stop
  stop := by rw [String.append_empty, h.stop]
  line := by
    rw [String.toList_append, List.count_append, List.count_eq_zero.2 hline, h.line, Nat.add_zero]
  column := by
    have hcolumn := h.column
    have hstart := h.start
    have hstop := h.stop
    rw [String.utf8ByteSize_append] at hstop
    show span.column + text.utf8ByteSize + lineStart (before ++ text) = span.stop
    rw [lineStart_append hline]
    omega

end Span.Marks

namespace Token

/-! ## Tokens in a text that is cut -/

/-- A token of a text is the lexeme at the head of the text from it on, behind an operand or not. -/
theorem Cut.split_lexeme {afterOperand : Bool} {p : Position} {cs : List Char}
    {us vs : List Token} {t : Token} (h : Cut afterOperand p cs (us ++ t :: vs)) :
    ∃ operand w rest, cs = w ++ t.text.toList ++ rest ∧
      t.span = (p.advance w).spanOf t.text.toList ∧
      lexeme? operand (t.text.toList ++ rest) = some (t.kind, t.text.toList.length) ∧
        t.kind.isTrivia = false ∧
      Cut t.endsOperand (p.advance (w ++ t.text.toList)) rest vs := by
  generalize hts : us ++ t :: vs = ts at h
  induction h generalizing us with
  | nil => simp at hts
  | @trivia afterOperand p k v rest ts _ _ _ ih =>
    obtain ⟨operand, w, rest, rfl, hspan, hlexeme, hkind, htail⟩ := ih hts
    refine ⟨operand, v ++ w, rest, by simp, ?_, hlexeme, hkind, ?_⟩
    · rw [hspan, Position.advance_append]
    · rwa [List.append_assoc, Position.advance_append]
  | @token afterOperand p k v rest ts lexeme kind tail ih =>
    cases us with
    | nil =>
      obtain ⟨rfl, rfl⟩ := List.cons.inj hts
      refine ⟨afterOperand, [], rest, by simp, by simp, ?_, kind, ?_⟩
      · rw [String.toList_ofList]
        exact lexeme
      · simp only [List.nil_append, String.toList_ofList]
        exact tail
    | cons u us =>
      obtain ⟨operand, w, rest, rfl, hspan, hlexeme, hkind, htail⟩ := ih (List.cons.inj hts).2
      refine ⟨operand, v ++ w, rest, by simp, ?_, hlexeme, hkind, ?_⟩
      · rw [hspan, Position.advance_append]
      · rwa [List.append_assoc, Position.advance_append]

theorem Cut.split {afterOperand : Bool} {p : Position} {cs : List Char}
    {us vs : List Token} {t : Token} (h : Cut afterOperand p cs (us ++ t :: vs)) :
    ∃ w rest, cs = w ++ t.text.toList ++ rest ∧ t.span = (p.advance w).spanOf t.text.toList ∧
      Cut t.endsOperand (p.advance (w ++ t.text.toList)) rest vs := by
  obtain ⟨-, w, rest, htext, hspan, -, -, htail⟩ := h.split_lexeme
  exact ⟨w, rest, htext, hspan, htail⟩

theorem Cut.gap_of_nil {afterOperand : Bool} {p : Position} {cs : List Char}
    (h : Cut afterOperand p cs []) : Gap true cs := by
  obtain ⟨gaps, hlayout, rfl, -⟩ := h.exists_gaps
  obtain ⟨gap, gaps, rfl⟩ := hlayout.exists_cons
  exact hlayout.1

end Token

open Token

/-- Behind the text `before`, a text is cut into the tokens. -/
def CutBehind (afterOperand : Bool) (before text : String) (ts : List Token) : Prop :=
  Cut afterOperand (({} : Position).advance before.toList) text.toList ts

theorem lex_eq_ok_iff_cutBehind {source : String} {ts : List Token} :
    lex source = .ok ts ↔ CutBehind false "" source ts :=
  lex_eq_ok_iff

theorem CutBehind.split {afterOperand : Bool} {before text : String}
    {us vs : List Token} {t : Token} (h : CutBehind afterOperand before text (us ++ t :: vs)) :
    ∃ gap after, text = gap ++ t.text ++ after ∧ t.span.Marks (before ++ gap) t.text ∧
      CutBehind t.endsOperand (before ++ gap ++ t.text) after vs := by
  obtain ⟨w, rest, htext, hspan, htail⟩ := Cut.split h
  refine ⟨String.ofList w, String.ofList rest, String.toList_injective (by simp [htext]), ?_, ?_⟩
  · have hmarks := Position.marks_spanOf (before ++ String.ofList w) t.text
    rw [String.toList_append, String.toList_ofList, Position.advance_append] at hmarks
    rwa [hspan]
  · simpa [CutBehind] using htail

theorem CutBehind.head {afterOperand : Bool} {before text : String} {vs : List Token} {t : Token}
    (h : CutBehind afterOperand before text (t :: vs)) :
    ∃ gap after, text = gap ++ t.text ++ after ∧ t.span.Marks (before ++ gap) t.text ∧
      CutBehind t.endsOperand (before ++ gap ++ t.text) after vs := by
  rw [← List.nil_append (t :: vs)] at h
  exact h.split

theorem CutBehind.drop {afterOperand : Bool} {before text : String} {us vs : List Token}
    (h : CutBehind afterOperand before text (us ++ vs)) :
    ∃ used after afterOperand, text = used ++ after ∧
      CutBehind afterOperand (before ++ used) after vs := by
  obtain rfl | ⟨us, t, rfl⟩ := List.eq_nil_or_concat us
  · exact ⟨"", text, afterOperand, by simp, by simpa using h⟩
  · rw [List.concat_eq_append, List.append_assoc, List.singleton_append] at h
    obtain ⟨gap, after, rfl, -, htail⟩ := h.split
    exact ⟨gap ++ t.text, after, t.endsOperand, rfl, by rwa [← String.append_assoc]⟩

theorem lex_marks {source : String} {us vs : List Token} {t : Token}
    (h : lex source = .ok (us ++ t :: vs)) :
    ∃ before after, source = before ++ t.text ++ after ∧ t.span.Marks before t.text := by
  obtain ⟨gap, after, rfl, hmarks, -⟩ := (lex_eq_ok_iff_cutBehind.1 h).split
  exact ⟨_, after, by simp, hmarks⟩

theorem Token.inLine_of_lex {source : String} {ts : List Token} {t : Token}
    (h : lex source = .ok ts) (ht : t ∈ ts) : t.text ≠ "" ∧ '\n' ∉ t.text.toList := by
  obtain ⟨hk, hspells⟩ := (lex_eq_ok_iff.1 h).spelled.of_mem t ht
  obtain ⟨hne, hline⟩ := hspells.inLine hk
  exact ⟨fun heq => hne (by rw [heq]; rfl), hline⟩

/-- The end of the input stands right behind the last token, and nothing but a gap follows it. -/
theorem lex_marks_end {source : String} {ts : List Token} (h : lex source = .ok ts)
    (hne : ts ≠ []) :
    ∃ before after, source = before ++ after ∧ (SyntaxError.endSpan ts).Marks before "" ∧
      Gap true after.toList := by
  obtain ⟨us, t, rfl⟩ := (List.eq_nil_or_concat ts).resolve_left hne
  rw [List.concat_eq_append] at h ⊢
  obtain ⟨gap, after, rfl, hmarks, htail⟩ := (lex_eq_ok_iff_cutBehind.1 h).split
  have hline : '\n' ∉ t.text.toList := (Token.inLine_of_lex h (by simp)).2
  refine ⟨gap ++ t.text, after, rfl, ?_, Cut.gap_of_nil htail⟩
  simpa [SyntaxError.endSpan] using hmarks.behind hline

theorem lex_marks_error {source : String} {e : LexicalError} (h : lex source = .error e) :
    ∃ before after, source = before ++ String.singleton e.character ++ after ∧
      e.span.Marks before (String.singleton e.character) := by
  obtain ⟨w, rest, -, hsource, hposition, -, -⟩ := lexFrom_eq_error h
  refine ⟨String.ofList w, String.ofList rest, String.toList_injective (by simp [hsource]), ?_⟩
  have hmarks := Position.marks_spanOf (String.ofList w) (String.singleton e.character)
  simpa [LexicalError.span, hposition] using hmarks

/-! ## Places in the whole source -/

/-- The offsets of the line feeds in a text that stands at `offset`. -/
def lineFeeds (offset : Nat) : List Char → List Nat
  | [] => []
  | c :: cs =>
    if c = '\n' then offset :: lineFeeds (offset + c.utf8Size) cs
    else lineFeeds (offset + c.utf8Size) cs

/-- The offsets of the line feeds of a source that come before `offset`. -/
def lineFeedsBefore (source : String) (offset : Nat) : List Nat :=
  (lineFeeds 0 source.toList).filter (· < offset)

/-- The offset right behind the last line feed of a source that comes before `offset`,
zero if there is none. -/
def lineStartBefore (source : String) (offset : Nat) : Nat :=
  ((lineFeedsBefore source offset).getLast?.map (· + 1)).getD 0

/-- The text stands in the source where the span says, and line and column
are those of its offset. -/
structure Span.Locates (span : Span) (source text : String) : Prop where
  covers : span.Covers source text
  line : span.line = (lineFeedsBefore source span.start).length
  lineStart_le : lineStartBefore source span.start ≤ span.start
  column : span.column = span.start - lineStartBefore source span.start

theorem lineFeeds_append (offset : Nat) (cs ds : List Char) :
    lineFeeds offset (cs ++ ds) =
      lineFeeds offset cs ++ lineFeeds (offset + (String.ofList cs).utf8ByteSize) ds := by
  induction cs generalizing offset with
  | nil => simp [lineFeeds]
  | cons c cs ih =>
    have hsize : offset + (String.ofList (c :: cs)).utf8ByteSize =
        offset + c.utf8Size + (String.ofList cs).utf8ByteSize := by
      simp [String.ofList_cons, Nat.add_assoc]
    rw [hsize, List.cons_append, lineFeeds, lineFeeds, ih]
    split <;> rfl

theorem bounds_of_mem_lineFeeds {offset n : Nat} {cs : List Char} (h : n ∈ lineFeeds offset cs) :
    offset ≤ n ∧ n < offset + (String.ofList cs).utf8ByteSize := by
  induction cs generalizing offset with
  | nil => cases h
  | cons c cs ih =>
    have hsize :
        (String.ofList (c :: cs)).utf8ByteSize = c.utf8Size + (String.ofList cs).utf8ByteSize := by
      simp [String.ofList_cons]
    have hpos := c.utf8Size_pos
    have hmem : n = offset ∨ n ∈ lineFeeds (offset + c.utf8Size) cs := by
      rw [lineFeeds] at h
      split at h
      · exact List.mem_cons.1 h
      · exact .inr h
    rcases hmem with rfl | hmem
    · omega
    · have hbounds := ih hmem
      omega

theorem length_lineFeeds (offset : Nat) (cs : List Char) :
    (lineFeeds offset cs).length = cs.count '\n' := by
  induction cs generalizing offset with
  | nil => rfl
  | cons c cs ih => by_cases hc : c = '\n' <;> simp [lineFeeds, hc, ih]

theorem lineFeedsBefore_append (before after : String) :
    lineFeedsBefore (before ++ after) before.utf8ByteSize = lineFeeds 0 before.toList := by
  rw [lineFeedsBefore, String.toList_append, lineFeeds_append, String.ofList_toList,
    List.filter_append]
  have hbefore : ∀ n ∈ lineFeeds 0 before.toList, decide (n < before.utf8ByteSize) = true := by
    intro n hn
    simpa using (bounds_of_mem_lineFeeds hn).2
  have hafter : ∀ n ∈ lineFeeds (0 + before.utf8ByteSize) after.toList,
      ¬decide (n < before.utf8ByteSize) = true := by
    intro n hn
    simpa using (bounds_of_mem_lineFeeds hn).1
  rw [List.filter_eq_self.2 hbefore, List.filter_eq_nil_iff.2 hafter, List.append_nil]

/-- `lineStart`, which drops from the end what is no line feed, is the offset
behind the last line feed. -/
theorem getLast?_lineFeeds (cs : List Char) :
    ((lineFeeds 0 cs).getLast?.map (· + 1)).getD 0 = lineStart (String.ofList cs) := by
  induction cs using List.reverseRecOn with
  | nil => rfl
  | append_singleton cs c ih =>
    rw [lineFeeds_append]
    by_cases hc : c = '\n'
    · subst hc
      rw [lineStart_concat_lineFeed]
      simp [lineFeeds]
    · rw [lineStart_concat hc, ← ih]
      simp [lineFeeds, hc]

theorem Span.Marks.locates {span : Span} {source before text after : String}
    (h : span.Marks before text) (hs : source = before ++ text ++ after) :
    span.Locates source text := by
  have hfeeds : lineFeedsBefore source span.start = lineFeeds 0 before.toList := by
    rw [hs, h.start, String.append_assoc, lineFeedsBefore_append]
  have hstart : lineStartBefore source span.start = lineStart before := by
    rw [lineStartBefore, hfeeds, getLast?_lineFeeds, String.ofList_toList]
  have hcolumn := h.column
  refine ⟨h.covers hs, ?_, ?_, ?_⟩
  · rw [hfeeds, length_lineFeeds, h.line]
  · omega
  · omega

/-- The places that the lexer gives are exact: of each token, if it gives tokens, and otherwise of
the character with which none begins. -/
theorem lex_locates (source : String) :
    (∀ ts, lex source = .ok ts → ∀ t ∈ ts, t.span.Locates source t.text) ∧
    ∀ e, lex source = .error e → e.span.Locates source (String.singleton e.character) := by
  constructor
  · intro ts h t ht
    obtain ⟨us, vs, rfl⟩ := List.append_of_mem ht
    obtain ⟨before, after, hs, hmarks⟩ := lex_marks h
    exact hmarks.locates hs
  · intro e h
    obtain ⟨before, after, hs, hmarks⟩ := lex_marks_error h
    exact hmarks.locates hs

/-- A source with a stray character behind empty lines and a comment of
characters of several bytes. -/
def straySource : String := "x;\n\n //é…\n  @"

theorem lex_locates_stray :
    lex straySource = .error ⟨'@', ⟨15, 3, 2⟩⟩ ∧ (⟨15, 16, 3, 2⟩ : Span).Locates straySource "@" ∧
      lex tightSource = .ok tightTokens ∧ (⟨10, 15, 1, 0⟩ : Span).Locates tightSource "print" := by
  have hstray : lex straySource = .error ⟨'@', ⟨15, 3, 2⟩⟩ := by decide +kernel
  have hprint := (lex_locates tightSource).1 tightTokens lex_tightSource
    ⟨.keyword, "print", 10, 15, 1, 0⟩ (by decide)
  exact ⟨hstray, (lex_locates straySource).2 _ hstray, lex_tightSource, hprint⟩

end Quadcode
