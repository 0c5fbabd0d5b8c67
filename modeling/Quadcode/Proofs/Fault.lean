import Quadcode.Compile
import Quadcode.Proofs.Grammar.Completion
import Quadcode.Proofs.Scope.Occurrence
import Quadcode.Proofs.Token.Position

/-!
# Where faults stand

Every fault of a script marks a stretch of its source: a character with which no token begins, a
token that does not fit, the place right behind the last token, or a name. A name that is alone in
round brackets has the place of the whole group, and so a name error marks the name in as many
pairs of brackets as there are around it (`Grouped`): exactly the name if there are none, and more
than the name otherwise.
-/

namespace Quadcode

open Token

/-- The tokens are a name in `depth` pairs of round brackets. The place of the name is that
of the outermost pair. -/
inductive Grouped : Nat → List Token → Ident → Prop
  | name {t : Token} (kind : t.kind = .identifier) : Grouped 0 [t] t.ident
  | group {depth : Nat} {l r : Token} {ts : List Token} {x : Ident} (opens : l.is .bracket "(")
      (inner : Grouped depth ts x) (closes : r.is .bracket ")") :
      Grouped (depth + 1) (l :: ts ++ [r]) { x with span := l.span.upTo r.span }

namespace Grouped

variable {depth : Nat} {group ts : List Token} {x : Ident}

theorem exists_ends (h : Grouped depth group x) :
    ∃ l ∈ group, ∃ r ∈ group, x.span = l.span.upTo r.span := by
  cases h with
  | @name t _ => exact ⟨t, by simp, t, by simp, rfl⟩
  | @group _ l r _ _ _ _ _ => exact ⟨l, by simp, r, by simp, rfl⟩

theorem exists_identifier (h : Grouped depth group x) :
    ∃ t ∈ group, t.kind = .identifier ∧ t.text = x.text := by
  induction h with
  | @name t kind => exact ⟨t, by simp, kind, rfl⟩
  | group _ _ _ ih =>
    obtain ⟨t, ht, hkind, htext⟩ := ih
    exact ⟨t, by simp [ht], hkind, htext⟩

/-- The place of a grouped name marks a text of its own, which is the name if there are no brackets
and which is longer by the brackets if there are some. -/
theorem marks {afterOperand : Bool} {before text : String} {vs : List Token}
    (h : Grouped depth group x) (hcut : CutBehind afterOperand before text (group ++ vs)) :
    ∃ gap marked after, text = gap ++ marked ++ after ∧ x.span.Marks (before ++ gap) marked ∧
      (depth = 0 → marked = x.text) ∧ x.text.utf8ByteSize + 2 * depth ≤ marked.utf8ByteSize ∧
      ∃ afterOperand, CutBehind afterOperand (before ++ gap ++ marked) after vs := by
  induction h generalizing afterOperand before text vs with
  | @name t _ =>
    obtain ⟨gap, after, rfl, hmarks, htail⟩ := hcut.head
    exact ⟨gap, t.text, after, rfl, hmarks, fun _ => rfl, Nat.le_refl _, _, htail⟩
  | @group depth l r ts x opens _ closes ih =>
    rw [List.cons_append, List.cons_append, List.append_assoc, List.singleton_append] at hcut
    obtain ⟨gap, text, rfl, hl, hinner⟩ := hcut.head
    obtain ⟨gap', marked, text, rfl, -, -, hsize, _, hlast⟩ := ih hinner
    obtain ⟨gap'', after, rfl, hr, htail⟩ := CutBehind.head hlast
    -- What is marked goes from bracket to bracket, with the gaps on both sides of what is marked
    -- within.
    refine ⟨gap, l.text ++ (gap' ++ marked ++ gap'') ++ r.text, after,
      by simp only [String.append_assoc], ?_, nofun, ?_, r.endsOperand, ?_⟩
    · exact hl.upTo (by simpa only [String.append_assoc] using hr)
    · have hopen : l.text.utf8ByteSize = 1 := by rw [(is_eq_true_iff.1 opens).2]; rfl
      have hclose : r.text.utf8ByteSize = 1 := by rw [(is_eq_true_iff.1 closes).2]; rfl
      simp only [String.utf8ByteSize_append]
      omega
    · simpa only [String.append_assoc] using htail

end Grouped

/-- The tokens hold the name of the occurrence, and it is not in brackets where it is declared. -/
def Occurrence.StandsIn (o : Occurrence) (ts : List Token) : Prop :=
  ∃ depth group, Grouped depth group o.name ∧ (o.isDeclaration = true → depth = 0) ∧ group <:+: ts

namespace Occurrence.StandsIn

variable {o : Occurrence} {ts us : List Token}

theorem widen (h : o.StandsIn ts) (hts : ts <:+: us) : o.StandsIn us := by
  obtain ⟨depth, group, hgroup, hdeclares, hinfix⟩ := h
  exact ⟨depth, group, hgroup, hdeclares, hinfix.trans hts⟩

theorem of_ident {t : Token} (kind : t.kind = .identifier) (hname : o.name = t.ident)
    (hts : [t] <:+: us) : o.StandsIn us := by
  refine ⟨0, [t], ?_, fun _ => rfl, hts⟩
  rw [hname]
  exact .name kind

end Occurrence.StandsIn

/-! ## The names of a tree with places -/

namespace Grammar.Placed

theorem Expression.grouped {ts : List Token} {x : String} {span : Span}
    (h : Expression ts (.name x span)) : ∃ depth, Grouped depth ts ⟨x, span⟩ := by
  generalize he : Expr.name x span = e at h
  induction h generalizing span with
  | number kind numeral => cases he
  | name kind =>
    cases he
    exact ⟨0, .name kind⟩
  | @group l r ts e opens _ closes ih =>
    cases e with
    | number value s => cases he
    | name y s =>
      cases he
      obtain ⟨depth, hinner⟩ := ih rfl
      exact ⟨depth + 1, .group opens hinner closes⟩
    | binary op left right s => cases he
  | binary => cases he

theorem Expression.standsIn {ts : List Token} {e : Expr} {path : ScopePath} {o : Occurrence}
    (h : Expression ts e) (ho : o ∈ e.occurrences path) : o.StandsIn ts := by
  induction h with
  | number kind numeral => cases ho
  | name kind =>
    obtain rfl := List.mem_singleton.1 ho
    exact .of_ident kind rfl List.infix_rfl
  | @group l r ts e opens inner closes ih =>
    cases e with
    | number value s => cases ho
    | name y s =>
      -- the name has the place of the whole group, and so the group is what it stands in
      obtain rfl := List.mem_singleton.1 ho
      obtain ⟨depth, hgroup⟩ := Expression.grouped (.group opens inner closes)
      exact ⟨depth, _, hgroup, nofun, List.infix_rfl⟩
    | binary op left right s => exact (ih ho).widen ⟨[l], [r], rfl⟩
  | @binary l o' r ts us e f op opens _ kind symbol _ closes ihl ihr =>
    rcases List.mem_append.1 ho with ho | ho
    · exact (ihl ho).widen ⟨[l], o' :: us ++ [r], by simp⟩
    · exact (ihr ho).widen ⟨l :: ts ++ [o'], [r], by simp⟩

mutual

theorem Statement.standsIn {ts : List Token} {s : Stmt} {path : ScopePath} {n : Nat}
    {o : Occurrence} (h : Statement ts s) (ho : o ∈ s.occurrences path n) : o.StandsIn ts := by
  match h with
  | @Statement.print k z _ _ _ value _ => exact (value.standsIn ho).widen ⟨[k], [z], rfl⟩
  | @Statement.declare k x q z ts _ _ name _ value _ =>
    rcases List.mem_append.1 ho with ho | ho
    · exact (value.standsIn ho).widen ⟨[k, x, q], [z], rfl⟩
    · obtain rfl := List.mem_singleton.1 ho
      exact .of_ident name rfl ⟨[k], q :: ts ++ [z], rfl⟩
  | @Statement.assign x q z ts _ name _ value _ =>
    rcases List.mem_cons.1 ho with rfl | ho
    · exact .of_ident name rfl ⟨[], q :: ts ++ [z], rfl⟩
    · exact (value.standsIn ho).widen ⟨[x, q], [z], rfl⟩
  | @Statement.ifThen k l r ts bs _ _ _ test _ inner _
  | @Statement.whileDo k l r ts bs _ _ _ test _ inner _ =>
    rcases List.mem_append.1 ho with ho | ho
    · exact (test.standsIn ho).widen ⟨[k], l :: bs ++ [r], by simp⟩
    · exact (inner.standsIn ho).widen ⟨k :: ts ++ [l], [r], by simp⟩
  | @Statement.forDo k h z x q c l r is ts us bs _ _ _ _ _ _ first test _ name _ value _ _
      inner _ =>
    simp only [Stmt.occurrences, List.mem_append, List.mem_cons] at ho
    rcases ho with ((ho | ho) | (rfl | ho)) | ho
    · exact (first.standsIn ho).widen
        ⟨[k, h], ts ++ z :: x :: q :: us ++ c :: l :: bs ++ [r], by simp⟩
    · exact (test.standsIn ho).widen
        ⟨k :: h :: is, z :: x :: q :: us ++ c :: l :: bs ++ [r], by simp⟩
    · exact .of_ident name rfl ⟨k :: h :: is ++ ts ++ [z], q :: us ++ c :: l :: bs ++ [r], by simp⟩
    · exact (value.standsIn ho).widen
        ⟨k :: h :: is ++ ts ++ [z, x, q], c :: l :: bs ++ [r], by simp⟩
    · exact (inner.standsIn ho).widen
        ⟨k :: h :: is ++ ts ++ z :: x :: q :: us ++ [c, l], [r], by simp⟩

theorem Statements.standsIn {ts : List Token} {body : List Stmt} {path : ScopePath} {n : Nat}
    {o : Occurrence} (h : Statements ts body) (ho : o ∈ Stmt.occurrencesAll path n body) :
    o.StandsIn ts := by
  match h with
  | .nil => cases ho
  | @Statements.cons ts us _ _ head tail =>
    rcases List.mem_append.1 ho with ho | ho
    · exact (head.standsIn ho).widen ⟨[], us, rfl⟩
    · exact (tail.standsIn ho).widen ⟨ts, [], by simp⟩

end

end Grammar.Placed

/-! ## Faults and their marks -/

theorem compile_eq_error {source : String} {fault : Fault} (h : compile source = .error fault) :
    (∃ e, fault = .lexical e ∧ lex source = .error e) ∨
      (∃ e ts, fault = .syntactic e ∧ lex source = .ok ts ∧ parse ts = .error e) ∨
      ∃ e ts program, fault = .naming e ∧ lex source = .ok ts ∧ parse ts = .ok program ∧
        checkNames program = .error e := by
  unfold compile tokensOf at h
  cases hlex : lex source with
  | error e =>
    rw [hlex] at h
    exact .inl ⟨e, (Except.error.inj h).symm, rfl⟩
  | ok ts =>
    rw [hlex] at h
    unfold checkedProgramOf programOf at h
    cases hparse : parse ts with
    | error e =>
      refine .inr (.inl ⟨e, ts, ?_, rfl, hparse⟩)
      simpa [hparse, Except.mapError, bind, Except.bind] using h.symm
    | ok program =>
      cases hnames : checkNames program with
      | error e =>
        refine .inr (.inr ⟨e, ts, program, ?_, rfl, hparse, hnames⟩)
        simpa [hparse, hnames, Except.mapError, bind, Except.bind] using h.symm
      | ok u => simp [hparse, hnames, Except.mapError, bind, Except.bind, pure, Except.pure] at h

theorem exists_occurrence_of_checkNames {program : List Stmt} {e : NameError}
    (h : checkNames program = .error e) : ∃ o ∈ Stmt.occurrencesAll [] 0 program, e = o.error := by
  rw [checkNames_eq] at h
  cases hfirst : Occurrence.first? [] (Stmt.occurrencesAll [] 0 program) with
  | none =>
    rw [hfirst] at h
    cases h
  | some o =>
    rw [hfirst] at h
    obtain ⟨i, hi, -⟩ := (Occurrence.first?_eq_some_iff _ _ _).1 hfirst
    exact ⟨o, List.mem_of_getElem? hi, (Except.error.inj h).symm⟩

theorem compile_eq_error_naming {source : String} {e : NameError}
    (h : compile source = .error (.naming e)) :
    ∃ ts depth group, lex source = .ok ts ∧ group <:+: ts ∧ Grouped depth group e.name ∧
      ((∃ name, e = .redeclared name) → depth = 0) := by
  rcases compile_eq_error h with
    ⟨_, heq, -⟩ | ⟨_, _, heq, -⟩ | ⟨_, ts, program, heq, hlex, hparse, hnames⟩
  · cases heq
  · cases heq
  · cases heq
    obtain ⟨⟨scope, isDeclaration, name⟩, ho, rfl⟩ := exists_occurrence_of_checkNames hnames
    obtain ⟨depth, group, hgroup, hdeclares, hin⟩ := (Grammar.placed_of_parse hparse).standsIn ho
    refine ⟨ts, depth, group, hlex, hin, ?_, ?_⟩
    · cases isDeclaration <;> exact hgroup
    · rintro ⟨_, heq⟩
      cases isDeclaration with
      | false => cases heq
      | true => exact hdeclares rfl

theorem lex_marks_grouped {source : String} {ts group : List Token} {depth : Nat} {x : Ident}
    (h : lex source = .ok ts) (hgroup : Grouped depth group x) (hin : group <:+: ts) :
    ∃ before text after, source = before ++ text ++ after ∧ x.span.Marks before text ∧
      (depth = 0 → text = x.text) ∧ x.text.utf8ByteSize + 2 * depth ≤ text.utf8ByteSize := by
  obtain ⟨us, vs, rfl⟩ := hin
  rw [List.append_assoc] at h
  obtain ⟨used, text, _, rfl, hcut⟩ := (lex_eq_ok_iff_cutBehind.1 h).drop
  obtain ⟨gap, marked, after, rfl, hmarks, hbare, hsize, -⟩ := hgroup.marks hcut
  rw [String.empty_append] at hmarks
  exact ⟨used ++ gap, marked, after, by simp only [String.append_assoc], hmarks, hbare, hsize⟩

/-- The fault is that the tokens of the script end too early. -/
def Fault.AtEnd : Fault → Prop
  | .syntactic e => e.found = none
  | _ => False

/-- Every fault of a script marks a text of its source, with the line and the column of that text.
The text is empty exactly if the script ends too early, and then nothing but a gap follows;
otherwise it is the character with which no token begins, or it goes from the beginning of a token
to the end of a token. -/
theorem compile_error_marks {source : String} {fault : Fault} (h : compile source = .error fault) :
    ∃ before text after, source = before ++ text ++ after ∧ fault.span.Marks before text ∧
      (fault.span.start = fault.span.stop ↔ fault.AtEnd) ∧ (fault.AtEnd → Gap true after.toList) ∧
      (∀ e, fault = .lexical e → text = String.singleton e.character) ∧
      (¬ fault.AtEnd → (∀ e, fault ≠ .lexical e) →
        ∃ ts, lex source = .ok ts ∧ ∃ t ∈ ts, ∃ u ∈ ts, fault.span = t.span.upTo u.span) := by
  rcases compile_eq_error h with ⟨e, rfl, hlex⟩ | ⟨e, ts, rfl, hlex, hparse⟩ | ⟨e, _, _, rfl, -⟩
  · obtain ⟨before, after, hsource, hmarks⟩ := lex_marks_error hlex
    refine ⟨before, _, after, hsource, hmarks, ?_, nofun, ?_, fun _ hne => absurd rfl (hne e)⟩
    · exact iff_of_false (fun hempty => absurd (hmarks.start_eq_stop_iff.1 hempty) (by simp)) nofun
    · rintro _ ⟨⟩
      rfl
  · obtain ⟨us, t, vs, _, x, rfl, -, -, rfl⟩ | ⟨_, x, -, -, rfl⟩ := parse_eq_error hparse
    · obtain ⟨before, after, hsource, hmarks⟩ := lex_marks hlex
      refine ⟨before, t.text, after, hsource, hmarks, ?_, nofun, nofun, fun _ _ => ?_⟩
      · have hne := (Token.inLine_of_lex hlex (by simp : t ∈ us ++ t :: vs)).1
        exact iff_of_false (fun hempty => hne (hmarks.start_eq_stop_iff.1 hempty)) nofun
      · exact ⟨_, hlex, t, by simp, t, by simp, rfl⟩
    · have hne : ts ≠ [] := by
        rintro rfl
        cases hparse
      obtain ⟨before, after, hsource, hmarks, hgap⟩ := lex_marks_end hlex hne
      refine ⟨before, "", after, by rwa [String.append_empty], hmarks, ?_,
        fun _ => hgap, nofun, fun hend => ?_⟩
      · exact ⟨fun _ => rfl, fun _ => hmarks.start_eq_stop_iff.2 rfl⟩
      · exact absurd rfl hend
  · obtain ⟨ts, depth, group, hlex, hin, hgroup, -⟩ := compile_eq_error_naming h
    obtain ⟨before, text, after, hsource, hmarks, -, hsize⟩ := lex_marks_grouped hlex hgroup hin
    obtain ⟨name, hname, -, hsame⟩ := hgroup.exists_identifier
    obtain ⟨l, hl, r, hr, hspan⟩ := hgroup.exists_ends
    refine ⟨before, text, after, hsource, hmarks, ?_, nofun, nofun, fun _ _ => ?_⟩
    · have hne := (Token.inLine_of_lex hlex (hin.subset hname)).1
      refine iff_of_false (fun hempty => hne ?_) nofun
      rw [hmarks.start_eq_stop_iff.1 hempty, String.utf8ByteSize_empty] at hsize
      rw [hsame, ← String.utf8ByteSize_eq_zero_iff]
      omega
    · exact ⟨ts, hlex, l, hin.subset hl, r, hin.subset hr, hspan⟩

/-- A script that ends within a group, behind a comment. -/
def unfinishedScript : String := "// \u00e9\nprint (\n1 // \u00fc"

/-- The fault of `unfinishedScript`, right behind its last token. -/
def unfinishedFault : Fault :=
  .syntactic { expected := .operatorOrClose, found := none, span := ⟨15, 15, 2, 1⟩ }

theorem compile_error_marks_unfinished :
    compile unfinishedScript = .error unfinishedFault ∧ unfinishedFault.AtEnd ∧
      ∃ before after, unfinishedScript = before ++ after ∧ (⟨15, 15, 2, 1⟩ : Span).Marks before "" ∧
        Gap true after.toList := by
  have hcompile : compile unfinishedScript = .error unfinishedFault := by decide +kernel
  have hend : unfinishedFault.AtEnd := rfl
  obtain ⟨before, text, after, hsource, hmarks, hempty, hgap, -⟩ := compile_error_marks hcompile
  obtain rfl := hmarks.start_eq_stop_iff.1 (hempty.2 hend)
  exact ⟨hcompile, hend, before, after, by rwa [String.append_empty] at hsource, hmarks, hgap hend⟩

/-- A name error marks its name in all the pairs of round brackets that hold nothing else: the name
itself, on one line, exactly if there are none, as it is for every name that is declared twice. -/
theorem compile_naming_error_marks {source : String} {e : NameError}
    (h : compile source = .error (.naming e)) :
    ∃ ts depth group, lex source = .ok ts ∧ group <:+: ts ∧ Grouped depth group e.name ∧
      ((∃ name, e = .redeclared name) → depth = 0) ∧
        (e.name.span.Covers source e.name.text ↔ depth = 0) ∧
      (depth = 0 → ∃ before after, source = before ++ e.name.text ++ after ∧
        e.name.span.Marks before e.name.text ∧ '\n' ∉ e.name.text.toList) := by
  obtain ⟨ts, depth, group, hlex, hin, hgroup, hdeclares⟩ := compile_eq_error_naming h
  obtain ⟨before, text, after, hsource, hmarks, hbare, hsize⟩ := lex_marks_grouped hlex hgroup hin
  refine ⟨ts, depth, group, hlex, hin, hgroup, hdeclares, ⟨?_, ?_⟩, ?_⟩
  · rintro ⟨before', after', -, hstart, hstop⟩
    have hstart' := hmarks.start
    have hstop' := hmarks.stop
    rw [String.utf8ByteSize_append] at hstop hstop'
    omega
  · intro hdepth
    rw [← hbare hdepth]
    exact hmarks.covers hsource
  · intro hdepth
    obtain ⟨name, hname, -, hsame⟩ := hgroup.exists_identifier
    rw [hbare hdepth] at hsource hmarks
    refine ⟨before, after, hsource, hmarks, ?_⟩
    rw [← hsame]
    exact (Token.inLine_of_lex hlex (hin.subset hname)).2

/-- A script with an undeclared name in a sum. -/
def undeclaredScript : String := "var a = 1;\nprint (a + b);"

theorem compile_naming_error_marks_undeclared :
    compile undeclaredScript = .error (.naming (.undeclared ⟨"b", 22, 23, 1, 11⟩)) ∧
      ∃ before after, undeclaredScript = before ++ "b" ++ after ∧
        (⟨22, 23, 1, 11⟩ : Span).Marks before "b" ∧ '\n' ∉ "b".toList := by
  have hcompile :
      compile undeclaredScript = .error (.naming (.undeclared ⟨"b", 22, 23, 1, 11⟩)) := by
    decide +kernel
  have hcovers : (⟨22, 23, 1, 11⟩ : Span).Covers undeclaredScript "b" :=
    ⟨"var a = 1;\nprint (a + ", ");", rfl, rfl, rfl⟩
  obtain ⟨_, _, _, -, -, -, -, hbare, hmarks⟩ := compile_naming_error_marks hcompile
  exact ⟨hcompile, hmarks (hbare.1 hcovers)⟩

/-- The error of a name in brackets does not mark the name. -/
theorem compile_naming_error_marks_group :
    compile "print (x);" = .error (.naming (.undeclared ⟨"x", 6, 9, 0, 6⟩)) ∧
      ¬ (⟨6, 9, 0, 6⟩ : Span).Covers "print (x);" "x" := by
  refine ⟨by decide +kernel, ?_⟩
  rintro ⟨before, after, -, hstart, hstop⟩
  have hsize : "x".utf8ByteSize = 1 := rfl
  rw [String.utf8ByteSize_append] at hstop
  dsimp only at hstart hstop
  omega

end Quadcode
