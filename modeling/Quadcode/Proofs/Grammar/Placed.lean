import Quadcode.Proofs.Grammar

/-!
# Derivations of trees with their places

In a tree that has been read from tokens, every node keeps the stretch from the first to the last of
its own tokens. `Placed.Expression`, `Placed.Statement` and `Placed.Statements` are the derivations
of such trees. A group in round brackets is the tree of what stands in it, but it has the stretch of
the whole group. Every derivation belongs to a tree with places (`Statements.exists_placed`).
-/

namespace Quadcode

/-- The name that a token spells, where it stands. -/
abbrev Token.ident (t : Token) : Ident :=
  { text := t.text, span := t.span }

namespace Grammar

namespace Placed

/-- The tokens spell the expression, places included. -/
inductive Expression : List Token → Expr → Prop
  | number {t : Token} {value : Binary64} (kind : t.kind = .number)
      (numeral : Binary64.ofText? t.text = some value) : Expression [t] (.number value t.span)
  | name {t : Token} (kind : t.kind = .identifier) : Expression [t] (.name t.text t.span)
  | group {l r : Token} {ts : List Token} {e : Expr} (opens : l.is .bracket "(")
      (inner : Expression ts e) (closes : r.is .bracket ")") :
      Expression (l :: ts ++ [r]) (e.withSpan (l.span.upTo r.span))
  | binary {l o r : Token} {ts us : List Token} {e f : Expr} {op : Operator}
      (opens : l.is .bracket "(") (left : Expression ts e) (kind : o.kind = .operator)
      (symbol : Operator.ofSymbol? o.text = some op) (right : Expression us f)
      (closes : r.is .bracket ")") :
      Expression (l :: ts ++ o :: us ++ [r]) (.binary op e f (l.span.upTo r.span))

mutual

/-- The tokens spell the statement, places included. The step of a counting loop has no semicolon,
and so it ends with its value. -/
inductive Statement : List Token → Stmt → Prop
  | print {k z : Token} {ts : List Token} {e : Expr} (keyword : k.is .keyword "print")
      (value : Expression ts e) (stop : z.is .separator ";") :
      Statement (k :: ts ++ [z]) (.print e (k.span.upTo z.span))
  | declare {k x q z : Token} {ts : List Token} {e : Expr} (keyword : k.is .keyword "var")
      (name : x.kind = .identifier) (equals : q.is .assignment "=") (value : Expression ts e)
      (stop : z.is .separator ";") :
      Statement (k :: x :: q :: ts ++ [z]) (.declare x.ident e (k.span.upTo z.span))
  | assign {x q z : Token} {ts : List Token} {e : Expr} (name : x.kind = .identifier)
      (equals : q.is .assignment "=") (value : Expression ts e) (stop : z.is .separator ";") :
      Statement (x :: q :: ts ++ [z]) (.assign x.ident e (x.span.upTo z.span))
  | ifThen {k l r : Token} {ts bs : List Token} {e : Expr} {body : List Stmt}
      (keyword : k.is .keyword "if") (test : Expression ts e) (opens : l.is .bracket "\x7b")
      (inner : Statements bs body) (closes : r.is .bracket "\x7d") :
      Statement (k :: ts ++ l :: bs ++ [r]) (.ifThen e body (k.span.upTo r.span))
  | whileDo {k l r : Token} {ts bs : List Token} {e : Expr} {body : List Stmt}
      (keyword : k.is .keyword "while") (test : Expression ts e) (opens : l.is .bracket "\x7b")
      (inner : Statements bs body) (closes : r.is .bracket "\x7d") :
      Statement (k :: ts ++ l :: bs ++ [r]) (.whileDo e body (k.span.upTo r.span))
  | forDo {k h z x q c l r : Token} {is ts us bs : List Token} {initial : Stmt} {e f : Expr}
      {body : List Stmt} (keyword : k.is .keyword "for") (header : h.is .bracket "(")
      (first : Statement is initial) (test : Expression ts e) (stop : z.is .separator ";")
      (name : x.kind = .identifier) (equals : q.is .assignment "=") (value : Expression us f)
      (headerEnd : c.is .bracket ")") (opens : l.is .bracket "\x7b") (inner : Statements bs body)
      (closes : r.is .bracket "\x7d") :
      Statement (k :: h :: is ++ ts ++ z :: x :: q :: us ++ c :: l :: bs ++ [r])
        (.forDo initial e (.assign x.ident f (x.span.upTo f.span)) body (k.span.upTo r.span))

/-- The tokens spell the statements, one after the other, places included. -/
inductive Statements : List Token → List Stmt → Prop
  | nil : Statements [] []
  | cons {ts us : List Token} {s : Stmt} {rest : List Stmt} (head : Statement ts s)
      (tail : Statements us rest) : Statements (ts ++ us) (s :: rest)

end

end Placed

/-! ## Every derivation has its places -/

theorem Expression.exists_placed {ts : List Token} {e : Expr} (h : Expression ts e) :
    ∃ e' : Expr, e'.bare = e ∧ Placed.Expression ts e' := by
  induction h with
  | number kind numeral => exact ⟨_, rfl, .number kind numeral⟩
  | name kind => exact ⟨_, rfl, .name kind⟩
  | @group l r ts e opens _ closes ih =>
    obtain ⟨e', rfl, he⟩ := ih
    exact ⟨_, Expr.bare_withSpan e' _, .group opens he closes⟩
  | binary opens _ kind symbol _ closes ihl ihr =>
    obtain ⟨e', rfl, he⟩ := ihl
    obtain ⟨f', rfl, hf⟩ := ihr
    exact ⟨_, rfl, .binary opens he kind symbol hf closes⟩

mutual

theorem Statement.exists_placed {ts : List Token} {s : Stmt} (h : Statement ts s) :
    ∃ s' : Stmt, s'.bare = s ∧ Placed.Statement ts s' := by
  match h with
  | .print keyword value stop =>
    obtain ⟨e', rfl, he⟩ := value.exists_placed
    exact ⟨_, rfl, .print keyword he stop⟩
  | .declare keyword name equals value stop =>
    obtain ⟨e', rfl, he⟩ := value.exists_placed
    exact ⟨_, rfl, .declare keyword name equals he stop⟩
  | .assign name equals value stop =>
    obtain ⟨e', rfl, he⟩ := value.exists_placed
    exact ⟨_, rfl, .assign name equals he stop⟩
  | .ifThen keyword test opens inner closes =>
    obtain ⟨e', rfl, he⟩ := test.exists_placed
    obtain ⟨body', rfl, hbody⟩ := inner.exists_placed
    exact ⟨_, rfl, .ifThen keyword he opens hbody closes⟩
  | .whileDo keyword test opens inner closes =>
    obtain ⟨e', rfl, he⟩ := test.exists_placed
    obtain ⟨body', rfl, hbody⟩ := inner.exists_placed
    exact ⟨_, rfl, .whileDo keyword he opens hbody closes⟩
  | .forDo keyword header first test stop name equals value headerEnd opens inner closes =>
    obtain ⟨i', rfl, hi⟩ := first.exists_placed
    obtain ⟨e', rfl, he⟩ := test.exists_placed
    obtain ⟨f', rfl, hf⟩ := value.exists_placed
    obtain ⟨body', rfl, hbody⟩ := inner.exists_placed
    exact ⟨_, rfl, .forDo keyword header hi he stop name equals hf headerEnd opens hbody closes⟩

theorem Statements.exists_placed {ts : List Token} {body : List Stmt} (h : Statements ts body) :
    ∃ body' : List Stmt, Stmt.bareAll body' = body ∧ Placed.Statements ts body' := by
  match h with
  | .nil => exact ⟨[], rfl, .nil⟩
  | .cons head tail =>
    obtain ⟨s', rfl, hs⟩ := head.exists_placed
    obtain ⟨rest', rfl, hrest⟩ := tail.exists_placed
    exact ⟨_, rfl, .cons hs hrest⟩

end

end Grammar

end Quadcode
