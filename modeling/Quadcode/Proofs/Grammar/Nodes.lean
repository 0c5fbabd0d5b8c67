import Quadcode.Proofs.Grammar.Recognition
import Quadcode.Proofs.Grammar.Written
import Quadcode.Proofs.Token.Locality

/-!
# The nodes of a tree and the source they were read from

Each node of a tree was read from a stretch of the tokens (`Node.Spells`), and its children from
stretches of that one, one after the other (`Arranged`). The span of a node goes from the first to
the last of its tokens. Both together give the order of spans, and with the lexing of stretches the
main statement: the source at the span of a node is read back as that node, up to places
(`parse_nodes_exact`).
-/

namespace Quadcode

open Token

/-! ## Nodes -/

/-- The stretch of source of a statement. -/
def Stmt.span : Stmt → Span
  | .print _ span | .declare _ _ span | .assign _ _ span => span
  | .ifThen _ _ span | .whileDo _ _ span | .forDo _ _ _ _ span => span

/-- A node of a tree. The step of a counting loop is told apart from other statements,
for it has no semicolon. -/
inductive Node where
  | expr (e : Expr)
  | stmt (s : Stmt)
  | step (s : Stmt)
  | name (x : Ident)

/-- The nodes right below an expression. -/
def Expr.parts : Expr → List Node
  | .number _ _ => []
  | .name _ _ => []
  | .binary _ left right _ => [.expr left, .expr right]

/-- The nodes right below a statement, in the order in which they are written. -/
def Stmt.parts : Stmt → List Node
  | .print value _ => [.expr value]
  | .declare name value _ => [.name name, .expr value]
  | .assign name value _ => [.name name, .expr value]
  | .ifThen test body _ => .expr test :: body.map .stmt
  | .whileDo test body _ => .expr test :: body.map .stmt
  | .forDo initial test step body _ => .stmt initial :: .expr test :: .step step :: body.map .stmt

namespace Node

/-- The stretch of source of a node. -/
def span : Node → Span
  | .expr e => e.span
  | .stmt s => s.span
  | .step s => s.span
  | .name x => x.span

/-- The nodes right below a node. -/
def children : Node → List Node
  | .expr e => e.parts
  | .stmt s => s.parts
  | .step s => s.parts
  | .name _ => []

/-- The nodes of a program: its statements and all that is below them. -/
inductive Of (program : List Stmt) : Node → Prop
  | top {s : Stmt} (mem : s ∈ program) : Of program (.stmt s)
  | child {n c : Node} (parent : Of program n) (mem : c ∈ n.children) : Of program c

/-- The node was read from these tokens. -/
def Spells (us : List Token) : Node → Prop
  | .expr e => Grammar.Placed.Expression us e
  | .stmt s => Grammar.Placed.Statement us s
  | .step s => ∃ x q vs e, us = x :: q :: vs ∧ x.kind = .identifier ∧ q.is .assignment "=" ∧
      Grammar.Placed.Expression vs e ∧ s = .assign x.ident e (x.span.upTo e.span)
  | .name x => ∃ t : Token, us = [t] ∧ t.kind = .identifier ∧ x = t.ident

end Node

/-- The nodes were read from stretches of the tokens, one behind the other. -/
inductive Arranged : List Node → List Token → Prop
  | nil {ts : List Token} : Arranged [] ts
  | cons {n : Node} {ns : List Node} {us rest : List Token} (gap : List Token)
      (spells : n.Spells us) (tail : Arranged ns rest) : Arranged (n :: ns) (gap ++ us ++ rest)

namespace Arranged

variable {ns ms : List Node} {us vs : List Token}

theorem widen (h : Arranged ns us) (before after : List Token) :
    Arranged ns (before ++ us ++ after) := by
  induction h generalizing before with
  | nil => exact .nil
  | @cons n ns us rest gap spells _ ih =>
    have htail := Arranged.cons (before ++ gap) spells (ih [])
    simpa using htail

theorem append (h : Arranged ns us) (h' : Arranged ms vs) : Arranged (ns ++ ms) (us ++ vs) := by
  induction h with
  | @nil us =>
    have hwide := h'.widen us []
    rwa [List.append_nil] at hwide
  | @cons n ns us rest gap spells _ ih =>
    rw [List.append_assoc]
    exact .cons gap spells ih

theorem single {n : Node} (h : n.Spells us) : Arranged [n] us := by
  have hone : Arranged [n] ([] ++ us ++ []) := .cons [] h .nil
  rwa [List.nil_append, List.append_nil] at hone

theorem of_mem (h : Arranged ns us) {n : Node} (hn : n ∈ ns) : ∃ vs, vs <:+: us ∧ n.Spells vs := by
  induction h with
  | nil => cases hn
  | @cons n' ns us rest gap spells _ ih =>
    rcases List.mem_cons.1 hn with rfl | hn
    · exact ⟨us, ⟨gap, rest, rfl⟩, spells⟩
    · obtain ⟨vs, hvs, hspells⟩ := ih hn
      exact ⟨vs, hvs.trans (List.suffix_append _ _).isInfix, hspells⟩

end Arranged

/-! ## Children stand in their parents -/

namespace Grammar.Placed

theorem Expression.arranged {ts : List Token} {e : Expr} (h : Expression ts e) :
    Arranged e.parts ts := by
  induction h with
  | number => exact .nil
  | name => exact .nil
  | @group l r ts e _ _ _ ih =>
    have hparts (span : Span) : (e.withSpan span).parts = e.parts := by cases e <;> rfl
    rw [hparts]
    exact ih.widen [l] [r]
  | @binary l o r ts us e f op _ left _ _ right _ =>
    have hright := (Arranged.single (n := .expr f) right).widen [o] [r]
    have hboth := ((Arranged.single (n := .expr e) left).widen [l] []).append hright
    simpa [Expr.parts] using hboth

theorem Statements.arranged {ts : List Token} {body : List Stmt} (h : Statements ts body) :
    Arranged (body.map .stmt) ts := by
  induction body generalizing ts with
  | nil => exact .nil
  | cons s rest ih =>
    cases h with
    | cons head tail => exact (Arranged.single (n := .stmt s) head).append (ih tail)

theorem Statement.arranged {ts : List Token} {s : Stmt} (h : Statement ts s) :
    Arranged s.parts ts := by
  cases h with
  | @print k z ts e _ value _ => exact (Arranged.single (n := .expr e) value).widen [k] [z]
  | @declare k x q z ts e _ name _ value _ =>
    have hname : Node.Spells [x] (.name x.ident) := ⟨x, rfl, name, rfl⟩
    have hvalue := (Arranged.single (n := .expr e) value).widen [q] [z]
    exact ((Arranged.single hname).widen [k] []).append hvalue
  | @assign x q z ts e name _ value _ =>
    have hname : Node.Spells [x] (.name x.ident) := ⟨x, rfl, name, rfl⟩
    have hvalue := (Arranged.single (n := .expr e) value).widen [q] [z]
    exact (Arranged.single hname).append hvalue
  | @ifThen k l r ts bs e body _ test _ inner _ | @whileDo k l r ts bs e body _ test _ inner _ =>
    have htest := (Arranged.single (n := .expr e) test).widen [k] []
    have hboth := htest.append (inner.arranged.widen [l] [r])
    simpa [Stmt.parts] using hboth
  | @forDo k h z x q c l r is ts us bs initial e f body _ _ first test _ name equals value _ _
      inner _ =>
    have hfirst := (Arranged.single (n := .stmt initial) first).widen [k, h] []
    have htest := Arranged.single (n := .expr e) test
    have hspells : Node.Spells (x :: q :: us) (.step (.assign x.ident f (x.span.upTo f.span))) :=
      ⟨x, q, us, f, rfl, name, equals, value, rfl⟩
    have hstep := (Arranged.single hspells).widen [z] []
    have hbody := inner.arranged.widen [c, l] [r]
    have hall := (hfirst.append htest).append (hstep.append hbody)
    simpa [Stmt.parts] using hall

end Grammar.Placed

namespace Node

theorem Spells.arranged {n : Node} {us : List Token} (h : n.Spells us) :
    Arranged n.children us := by
  cases n with
  | expr e => exact Grammar.Placed.Expression.arranged h
  | stmt s => exact Grammar.Placed.Statement.arranged h
  | step s =>
    obtain ⟨x, q, vs, e, rfl, name, -, value, rfl⟩ := h
    have hname : Spells [x] (.name x.ident) := ⟨x, rfl, name, rfl⟩
    have hvalue := (Arranged.single (n := .expr e) value).widen [q] []
    rw [List.append_nil] at hvalue
    exact (Arranged.single hname).append hvalue
  | name x => exact .nil

theorem Of.exists_spells {program : List Stmt} {ts : List Token} {n : Node} (h : Of program n)
    (hts : Grammar.Placed.Statements ts program) : ∃ us, us <:+: ts ∧ n.Spells us := by
  induction h with
  | top mem => exact hts.arranged.of_mem (List.mem_map_of_mem mem)
  | child _ mem ih =>
    obtain ⟨us, hus, hspells⟩ := ih
    obtain ⟨vs, hvs, hchild⟩ := hspells.arranged.of_mem mem
    exact ⟨vs, hvs.trans hus, hchild⟩

end Node

/-! ## Spans and tokens -/

/-- The span goes from the first to the last of the tokens. The first one is no operator, so that it
is read in the same way at the beginning of a text. -/
def Span.Frames (span : Span) (us : List Token) : Prop :=
  ∃ t u, us.head? = some t ∧ us.getLast? = some u ∧ span = t.span.upTo u.span ∧ t.kind ≠ .operator

theorem Span.frames_single {t : Token} (hk : t.kind ≠ .operator) : t.span.Frames [t] :=
  ⟨t, t, rfl, rfl, rfl, hk⟩

theorem Span.frames_between {t u : Token} {mid : List Token} (hk : t.kind ≠ .operator) :
    (t.span.upTo u.span).Frames (t :: mid ++ [u]) :=
  ⟨t, u, rfl, List.getLast?_concat, rfl, hk⟩

theorem Token.kind_ne_operator {t : Token} {kind : Kind} {text : String} (h : t.is kind text)
    (hk : kind ≠ .operator) : t.kind ≠ .operator := by
  rwa [(is_eq_true_iff.1 h).1]

namespace Grammar.Placed

theorem Expression.frames {ts : List Token} {e : Expr} (h : Expression ts e) :
    e.span.Frames ts := by
  cases h with
  | number kind _ => exact Span.frames_single (by simp [kind])
  | name kind => exact Span.frames_single (by simp [kind])
  | @group l r ts e opens _ _ =>
    have hspan (span : Span) : (e.withSpan span).span = span := by cases e <;> rfl
    rw [hspan]
    exact Span.frames_between (kind_ne_operator opens (by decide))
  | binary opens _ _ _ _ _ => exact Span.frames_between (kind_ne_operator opens (by decide))

theorem Statement.frames {ts : List Token} {s : Stmt} (h : Statement ts s) : s.span.Frames ts := by
  cases h with
  | print keyword _ _ => exact Span.frames_between (kind_ne_operator keyword (by decide))
  | declare keyword _ _ _ _ => exact Span.frames_between (kind_ne_operator keyword (by decide))
  | assign name _ _ _ => exact Span.frames_between (by simp [name])
  | ifThen keyword _ _ _ _ => exact Span.frames_between (kind_ne_operator keyword (by decide))
  | whileDo keyword _ _ _ _ => exact Span.frames_between (kind_ne_operator keyword (by decide))
  | forDo keyword _ _ _ _ _ _ _ _ _ _ _ =>
    exact Span.frames_between (kind_ne_operator keyword (by decide))

end Grammar.Placed

theorem Node.Spells.frames {n : Node} {us : List Token} (h : n.Spells us) : n.span.Frames us := by
  cases n with
  | expr e => exact Grammar.Placed.Expression.frames h
  | stmt s => exact Grammar.Placed.Statement.frames h
  | step s =>
    obtain ⟨x, q, vs, e, rfl, name, -, value, rfl⟩ := h
    obtain ⟨t, u, hfirst, hlast, hspan, -⟩ := value.frames
    refine ⟨x, u, rfl, ?_, ?_, by simp [name]⟩
    · show ([x, q] ++ vs).getLast? = some u
      rw [List.getLast?_append, hlast]
      rfl
    · show x.span.upTo e.span = _
      rw [hspan]
      rfl
  | name x =>
    obtain ⟨t, rfl, kind, rfl⟩ := h
    exact Span.frames_single (by simp [kind])

/-- The tokens stand one behind the other. -/
structure InOrder (us : List Token) : Prop where
  apart : us.Pairwise fun t u => t.span.stop ≤ u.span.start
  forward : ∀ t ∈ us, t.span.start ≤ t.span.stop

namespace InOrder

variable {us vs : List Token} {t u : Token}

theorem of_infix (h : InOrder us) (hvs : vs <:+: us) : InOrder vs where
  apart := h.apart.sublist hvs.sublist
  forward t ht := h.forward t (hvs.subset ht)

theorem start_le (h : InOrder us) (ht : us.head? = some t) (hu : u ∈ us) :
    t.span.start ≤ u.span.start := by
  obtain ⟨us, rfl⟩ := List.head?_eq_some_iff.1 ht
  rcases List.mem_cons.1 hu with rfl | hu
  · exact Nat.le_refl _
  · have hapart := (List.pairwise_cons.1 h.apart).1 u hu
    have hforward := h.forward t (.head _)
    omega

theorem stop_le (h : InOrder us) (hu : us.getLast? = some u) (ht : t ∈ us) :
    t.span.stop ≤ u.span.stop := by
  obtain ⟨us, rfl⟩ := List.getLast?_eq_some_iff.1 hu
  rcases List.mem_append.1 ht with ht | ht
  · have hapart := (List.pairwise_append.1 h.apart).2.2 t ht u (.head _)
    have hforward := h.forward u (List.mem_append_right _ (.head _))
    omega
  · obtain rfl := List.mem_singleton.1 ht
    exact Nat.le_refl _

end InOrder

theorem InOrder.of_lex {source : String} {ts : List Token} (h : lex source = .ok ts) :
    InOrder ts where
  apart := (lex_eq_ok_iff.1 h).inOrder
  forward t ht := by
    rw [(lex_eq_ok_iff.1 h).stop_eq t ht]
    exact Nat.le_add_right _ _

theorem Span.Frames.inside {span inner : Span} {us vs : List Token} (h : span.Frames us)
    (h' : inner.Frames vs) (hvs : vs <:+: us) (hus : InOrder us) :
    span.start ≤ inner.start ∧ inner.stop ≤ span.stop := by
  obtain ⟨t, u, hfirst, hlast, rfl, -⟩ := h
  obtain ⟨t', u', hfirst', hlast', rfl, -⟩ := h'
  constructor
  · exact hus.start_le hfirst (hvs.subset (List.mem_of_head? hfirst'))
  · exact hus.stop_le hlast (hvs.subset (List.mem_of_getLast? hlast'))

theorem Arranged.inOrder {ns : List Node} {us : List Token} (h : Arranged ns us)
    (hus : InOrder us) : ns.Pairwise fun c d => c.span.stop ≤ d.span.start := by
  induction h with
  | nil => exact .nil
  | @cons n ns us rest gap spells tail ih =>
    refine .cons (fun d hd => ?_) (ih (hus.of_infix (List.suffix_append _ _).isInfix))
    -- the last token of the node stands before the first one of each later node
    obtain ⟨vs, hvs, hspells⟩ := tail.of_mem hd
    obtain ⟨_, u, -, hlast, hspan, -⟩ := spells.frames
    obtain ⟨t, _, hfirst, -, hspan', -⟩ := hspells.frames
    rw [hspan, hspan']
    have hu : u ∈ gap ++ us := List.mem_append_right _ (List.mem_of_getLast? hlast)
    exact (List.pairwise_append.1 hus.apart).2.2 u hu t (hvs.subset (List.mem_of_head? hfirst))

/-! ## Reading a node back -/

/-- The text is read as the node, up to places. The step of a counting loop needs a semicolon behind
it to be read as a statement. -/
def Node.ReadsBack (text : String) : Node → Prop
  | .expr e => ∃ vs e', lex text = .ok vs ∧ Expr.parse vs = .ok (e', []) ∧ e'.bare = e.bare
  | .stmt s => ∃ vs s', lex text = .ok vs ∧ parse vs = .ok [s'] ∧ s'.bare = s.bare
  | .step s =>
    ∃ vs s', lex text = .ok vs ∧ parse (vs ++ [Token.of .separator ";"]) = .ok [s'] ∧
      s'.bare = s.bare
  | .name x => text = x.text

/-- The source at the span of some tokens gives these tokens again, up to places. -/
theorem lex_stretch {source : String} {ts us : List Token} {span : Span} (h : lex source = .ok ts)
    (hus : us <:+: ts) (hspan : span.Frames us) :
    ∃ text vs, span.Covers source text ∧ lex text = .ok vs ∧ vs.map bare = us.map bare := by
  obtain ⟨before, after, rfl⟩ := hus
  obtain ⟨t, u, hfirst, hlast, rfl, hk⟩ := hspan
  obtain ⟨w, text, rest, hsource, hspan, hlexed⟩ := (lex_eq_ok_iff.1 h).stretch hfirst hlast hk
  obtain ⟨vs, hvs, hbare⟩ := hlexed {}
  refine ⟨String.ofList text, vs, ?_, ?_, hbare⟩
  · have hmarks := Position.marks_spanOf (String.ofList w) (String.ofList text)
    rw [String.toList_ofList, String.toList_ofList, ← hspan] at hmarks
    have hparts : source = String.ofList w ++ String.ofList text ++ String.ofList rest :=
      String.toList_injective (by simp [hsource])
    exact hmarks.covers hparts
  · rw [lex, String.toList_ofList, hvs]

open Expr.Partial in
theorem Expr.Partial.Steps.run_eq {p : Expr.Partial} {ts : List Token} {e : Expr}
    (h : Steps p ts (.complete e)) (atEnd : Expectation → SyntaxError) (rest : List Token) :
    run atEnd p (ts ++ rest) = .ok (e, rest) := by
  generalize hg : Expr.Progress.complete e = g at h
  induction h with
  | last hs =>
    subst hg
    simp [run, hs]
  | cons hs _ ih => simp [run, hs, ih hg]

namespace Grammar

theorem Placed.Expression.bare {ts : List Token} {e : Expr} (h : Placed.Expression ts e) :
    Grammar.Expression ts e.bare := by
  induction h with
  | number kind numeral => exact .number kind numeral
  | name kind => exact .name kind
  | group opens _ closes ih =>
    rw [Expr.bare_withSpan]
    exact .group opens ih closes
  | binary opens _ kind symbol _ closes ihl ihr => exact .binary opens ihl kind symbol ihr closes

theorem Expression.parse {ts : List Token} {e : Expr} (h : Grammar.Expression ts e) :
    ∃ e' : Expr, e'.bare = e ∧ Expr.parse ts = .ok (e', []) := by
  obtain ⟨e', hbare, hplaced⟩ := h.exists_placed
  have hrun := (hplaced.steps []).run_eq (.atEnd ts) []
  rw [List.append_nil] at hrun
  exact ⟨e', hbare, hrun⟩

theorem Statement.parse {ts : List Token} {s : Stmt} (h : Grammar.Statement ts s) :
    ∃ s' : Stmt, s'.bare = s ∧ Quadcode.parse ts = .ok [s'] := by
  obtain ⟨s', hbare, hplaced⟩ := h.exists_placed
  have hone := Placed.Statements.cons hplaced .nil
  rw [List.append_nil] at hone
  exact ⟨s', hbare, hone.parse⟩

theorem Placed.Statement.bare {ts : List Token} {s : Stmt} (h : Placed.Statement ts s) :
    Grammar.Statement ts s.bare := by
  have hone := Placed.Statements.cons h .nil
  have hbare := statements_of_parse hone.parse
  rw [List.append_nil] at hbare
  cases hbare with
  | cons head tail =>
    cases tail
    rwa [List.append_nil]

end Grammar

open Grammar

theorem Node.Spells.readsBack {n : Node} {source : String} {ts us : List Token} (h : n.Spells us)
    (hlex : lex source = .ok ts) (hus : us <:+: ts) :
    ∃ text, n.span.Covers source text ∧ n.ReadsBack text := by
  obtain ⟨text, vs, hcovers, hvs, hbare⟩ := lex_stretch hlex hus h.frames
  cases n with
  | expr e =>
    obtain ⟨e', he, hparse⟩ := ((Placed.Expression.bare h).of_bare hbare).parse
    exact ⟨text, hcovers, vs, e', hvs, hparse, he⟩
  | stmt s =>
    obtain ⟨s', hs, hparse⟩ := ((Placed.Statement.bare h).of_bare hbare).parse
    exact ⟨text, hcovers, vs, s', hvs, hparse, hs⟩
  | step s =>
    obtain ⟨x, q, ws, e, rfl, name, equals, value, rfl⟩ := h
    have hended : Grammar.Statement (x :: q :: ws ++ [Token.of .separator ";"]) _ :=
      .assign name equals value.bare (Token.is_of _ _)
    have hsame : (vs ++ [Token.of .separator ";"]).map bare =
        (x :: q :: ws ++ [Token.of .separator ";"]).map bare := by
      rw [List.map_append, List.map_append, hbare]
    obtain ⟨s', hs, hparse⟩ := (hended.of_bare hsame).parse
    exact ⟨text, hcovers, vs, s', hvs, hparse, hs⟩
  | name x =>
    obtain ⟨t, rfl, -, rfl⟩ := h
    obtain ⟨before, after, rfl⟩ := hus
    rw [List.append_assoc] at hlex
    obtain ⟨before, after, hsource, hmarks⟩ := lex_marks hlex
    exact ⟨t.text, hmarks.covers hsource, rfl⟩

/-- The span of each node of a tree is the exact source of the node: the text there is read back as
that node and as nothing else, up to places, and line and column are those of its first token. The
spans of children lie in the span of their parent, in order and without overlap, and so do those of
the statements of the program. -/
theorem parse_nodes_exact {source : String} {ts : List Token} {program : List Stmt}
    (hlex : lex source = .ok ts) (hparse : parse ts = .ok program) :
    (∀ n, Node.Of program n →
      (∃ text, n.span.Covers source text ∧ n.ReadsBack text) ∧
      (∃ t ∈ ts, n.span.start = t.span.start ∧ n.span.line = t.span.line ∧
        n.span.column = t.span.column) ∧
      (∀ c ∈ n.children, n.span.start ≤ c.span.start ∧ c.span.stop ≤ n.span.stop) ∧
      n.children.Pairwise fun c d => c.span.stop ≤ d.span.start) ∧
    program.Pairwise fun s s' => s.span.stop ≤ s'.span.start := by
  have hplaced := placed_of_parse hparse
  have horder := InOrder.of_lex hlex
  refine ⟨fun n hn => ?_, List.pairwise_map.1 (hplaced.arranged.inOrder horder)⟩
  obtain ⟨us, hus, hspells⟩ := hn.exists_spells hplaced
  have husOrder := horder.of_infix hus
  refine ⟨hspells.readsBack hlex hus, ?_, fun c hc => ?_, hspells.arranged.inOrder husOrder⟩
  · obtain ⟨t, u, hfirst, -, hspan, -⟩ := hspells.frames
    rw [hspan]
    exact ⟨t, hus.subset (List.mem_of_head? hfirst), rfl, rfl, rfl⟩
  · obtain ⟨vs, hvs, hchild⟩ := hspells.arranged.of_mem hc
    exact hspells.frames.inside hchild.frames hvs husOrder

/-- A loop whose step subtracts a number in brackets from one with a sign. -/
def stepSource : String := "for(x=x;x;x=(-1-(2)))\x7b\x7d"

/-- The tokens of `stepSource`. -/
def stepTokens : List Token :=
  [⟨.keyword, "for", 0, 3, 0, 0⟩, ⟨.bracket, "(", 3, 4, 0, 3⟩, ⟨.identifier, "x", 4, 5, 0, 4⟩,
    ⟨.assignment, "=", 5, 6, 0, 5⟩, ⟨.identifier, "x", 6, 7, 0, 6⟩, ⟨.separator, ";", 7, 8, 0, 7⟩,
    ⟨.identifier, "x", 8, 9, 0, 8⟩, ⟨.separator, ";", 9, 10, 0, 9⟩,
    ⟨.identifier, "x", 10, 11, 0, 10⟩, ⟨.assignment, "=", 11, 12, 0, 11⟩,
    ⟨.bracket, "(", 12, 13, 0, 12⟩, ⟨.number, "-1", 13, 15, 0, 13⟩, ⟨.operator, "-", 15, 16, 0, 15⟩,
    ⟨.bracket, "(", 16, 17, 0, 16⟩, ⟨.number, "2", 17, 18, 0, 17⟩, ⟨.bracket, ")", 18, 19, 0, 18⟩,
    ⟨.bracket, ")", 19, 20, 0, 19⟩, ⟨.bracket, ")", 20, 21, 0, 20⟩,
    ⟨.bracket, "\x7b", 21, 22, 0, 21⟩, ⟨.bracket, "\x7d", 22, 23, 0, 22⟩]

/-- The value of the step in `stepSource`. -/
def stepValue : Expr :=
  .binary .sub (.number (.ofRank true 0x3FF0000000000000) ⟨13, 15, 0, 13⟩)
    (.number (.ofRank false 0x4000000000000000) ⟨16, 19, 0, 16⟩) ⟨12, 20, 0, 12⟩

/-- The program of `stepSource`. -/
def stepProgram : List Stmt :=
  [.forDo (.assign ⟨"x", 4, 5, 0, 4⟩ (.name "x" ⟨6, 7, 0, 6⟩) ⟨4, 8, 0, 4⟩) (.name "x" ⟨8, 9, 0, 8⟩)
    (.assign ⟨"x", 10, 11, 0, 10⟩ stepValue ⟨10, 20, 0, 10⟩) [] ⟨0, 23, 0, 0⟩]

/-- The step is read back as a statement, and the number in brackets as a number with the
place of the brackets. -/
theorem parse_nodes_exact_step :
    lex stepSource = .ok stepTokens ∧ parse stepTokens = .ok stepProgram ∧
      (∃ text, (⟨10, 20, 0, 10⟩ : Span).Covers stepSource text ∧
        Node.ReadsBack text (.step (.assign ⟨"x", 10, 11, 0, 10⟩ stepValue ⟨10, 20, 0, 10⟩))) ∧
      ∃ text, (⟨16, 19, 0, 16⟩ : Span).Covers stepSource text ∧
        Node.ReadsBack text
          (.expr (.number (.ofRank false 0x4000000000000000) ⟨16, 19, 0, 16⟩)) := by
  have hlex : lex stepSource = .ok stepTokens := by decide +kernel
  have hparse : parse stepTokens = .ok stepProgram := by decide +kernel
  obtain ⟨hnodes, -⟩ := parse_nodes_exact hlex hparse
  have hloop := @Node.Of.top stepProgram _ (.head _)
  have hstep := hloop.child (.tail _ (.tail _ (.head _)))
  have hnumber := (hstep.child (.tail _ (.head _))).child (.tail _ (.head _))
  exact ⟨hlex, hparse, (hnodes _ hstep).1, (hnodes _ hnumber).1⟩

end Quadcode
