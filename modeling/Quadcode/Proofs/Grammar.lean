import Quadcode.Stmt.Partial

/-!
# The grammar of programs

`Grammar.Expression`, `Grammar.Statement` and `Grammar.Statements` say which lists of tokens spell
which trees, without any reader in view. The trees are bare: every stretch of source in them is the
empty one, so that two trees which differ only in their places are one (`Expr.bare`, `Stmt.bare`). A
group in round brackets spells the same tree as what stands in it, and any statement may begin the
header of a counting loop, but only an assignment ends it.
-/

namespace Quadcode

/-! ## Trees without places -/

/-- The expression with every stretch of source forgotten. -/
def Expr.bare : Expr → Expr
  | .number value _ => .number value {}
  | .name x _ => .name x {}
  | .binary op left right _ => .binary op left.bare right.bare {}

/-- The name with its stretch of source forgotten. -/
def Ident.bare (name : Ident) : Ident :=
  { text := name.text }

namespace Stmt

mutual

/-- The statement with every stretch of source forgotten. -/
def bare : Stmt → Stmt
  | .print value _ => .print value.bare {}
  | .declare name value _ => .declare name.bare value.bare {}
  | .assign name value _ => .assign name.bare value.bare {}
  | .ifThen test body _ => .ifThen test.bare (bareAll body) {}
  | .whileDo test body _ => .whileDo test.bare (bareAll body) {}
  | .forDo initial test step body _ => .forDo initial.bare test.bare step.bare (bareAll body) {}
termination_by structural s => s

/-- The statements with every stretch of source forgotten. -/
def bareAll : List Stmt → List Stmt
  | [] => []
  | s :: rest => s.bare :: bareAll rest
termination_by structural body => body

end

theorem bareAll_eq_map (body : List Stmt) : bareAll body = body.map bare := by
  induction body with
  | nil => rfl
  | cons s rest ih => rw [bareAll, ih, List.map_cons]

mutual

/-- Whether two statements are the same, places included. -/
def decEq : (s t : Stmt) → Decidable (s = t)
  | .print e p, t => match t with
    | .print e' p' => decidable_of_iff (e = e' ∧ p = p') (by simp)
    | .declare .. | .assign .. | .ifThen .. | .whileDo .. | .forDo .. => isFalse nofun
  | .declare x e p, t => match t with
    | .declare x' e' p' => decidable_of_iff (x = x' ∧ e = e' ∧ p = p') (by simp)
    | .print .. | .assign .. | .ifThen .. | .whileDo .. | .forDo .. => isFalse nofun
  | .assign x e p, t => match t with
    | .assign x' e' p' => decidable_of_iff (x = x' ∧ e = e' ∧ p = p') (by simp)
    | .print .. | .declare .. | .ifThen .. | .whileDo .. | .forDo .. => isFalse nofun
  | .ifThen e body p, t => match t with
    | .ifThen e' body' p' =>
      have := decEqAll body body'
      decidable_of_iff (e = e' ∧ body = body' ∧ p = p') (by simp)
    | .print .. | .declare .. | .assign .. | .whileDo .. | .forDo .. => isFalse nofun
  | .whileDo e body p, t => match t with
    | .whileDo e' body' p' =>
      have := decEqAll body body'
      decidable_of_iff (e = e' ∧ body = body' ∧ p = p') (by simp)
    | .print .. | .declare .. | .assign .. | .ifThen .. | .forDo .. => isFalse nofun
  | .forDo i e st body p, t => match t with
    | .forDo i' e' st' body' p' =>
      have := decEq i i'
      have := decEq st st'
      have := decEqAll body body'
      decidable_of_iff (i = i' ∧ e = e' ∧ st = st' ∧ body = body' ∧ p = p') (by simp)
    | .print .. | .declare .. | .assign .. | .ifThen .. | .whileDo .. => isFalse nofun
termination_by structural s => s

/-- Whether two lists of statements are the same, places included. -/
def decEqAll : (body body' : List Stmt) → Decidable (body = body')
  | [], [] => isTrue rfl
  | [], _ :: _ => isFalse nofun
  | _ :: _, [] => isFalse nofun
  | s :: rest, s' :: rest' =>
    have := decEq s s'
    have := decEqAll rest rest'
    decidable_of_iff (s = s' ∧ rest = rest') (by simp)
termination_by structural body => body

end

instance : DecidableEq Stmt := decEq

end Stmt

@[simp]
theorem Expr.bare_withSpan (e : Expr) (span : Span) : (e.withSpan span).bare = e.bare := by
  cases e <;> rfl

/-! ## Derivations -/

namespace Grammar

/-- The tokens spell the expression. -/
inductive Expression : List Token → Expr → Prop
  | number {t : Token} {value : Binary64} (kind : t.kind = .number)
      (numeral : Binary64.ofText? t.text = some value) : Expression [t] (.number value {})
  | name {t : Token} (kind : t.kind = .identifier) : Expression [t] (.name t.text {})
  | group {l r : Token} {ts : List Token} {e : Expr} (opens : l.is .bracket "(")
      (inner : Expression ts e) (closes : r.is .bracket ")") : Expression (l :: ts ++ [r]) e
  | binary {l o r : Token} {ts us : List Token} {e f : Expr} {op : Operator}
      (opens : l.is .bracket "(") (left : Expression ts e) (kind : o.kind = .operator)
      (symbol : Operator.ofSymbol? o.text = some op) (right : Expression us f)
      (closes : r.is .bracket ")") :
      Expression (l :: ts ++ o :: us ++ [r]) (.binary op e f {})

mutual

/-- The tokens spell the statement. -/
inductive Statement : List Token → Stmt → Prop
  | print {k z : Token} {ts : List Token} {e : Expr} (keyword : k.is .keyword "print")
      (value : Expression ts e) (stop : z.is .separator ";") :
      Statement (k :: ts ++ [z]) (.print e {})
  | declare {k x q z : Token} {ts : List Token} {e : Expr} (keyword : k.is .keyword "var")
      (name : x.kind = .identifier) (equals : q.is .assignment "=") (value : Expression ts e)
      (stop : z.is .separator ";") :
      Statement (k :: x :: q :: ts ++ [z]) (.declare { text := x.text } e {})
  | assign {x q z : Token} {ts : List Token} {e : Expr} (name : x.kind = .identifier)
      (equals : q.is .assignment "=") (value : Expression ts e) (stop : z.is .separator ";") :
      Statement (x :: q :: ts ++ [z]) (.assign { text := x.text } e {})
  | ifThen {k l r : Token} {ts bs : List Token} {e : Expr} {body : List Stmt}
      (keyword : k.is .keyword "if") (test : Expression ts e) (opens : l.is .bracket "\x7b")
      (inner : Statements bs body) (closes : r.is .bracket "\x7d") :
      Statement (k :: ts ++ l :: bs ++ [r]) (.ifThen e body {})
  | whileDo {k l r : Token} {ts bs : List Token} {e : Expr} {body : List Stmt}
      (keyword : k.is .keyword "while") (test : Expression ts e) (opens : l.is .bracket "\x7b")
      (inner : Statements bs body) (closes : r.is .bracket "\x7d") :
      Statement (k :: ts ++ l :: bs ++ [r]) (.whileDo e body {})
  | forDo {k h z x q c l r : Token} {is ts us bs : List Token} {initial : Stmt} {e f : Expr}
      {body : List Stmt} (keyword : k.is .keyword "for") (header : h.is .bracket "(")
      (first : Statement is initial) (test : Expression ts e) (stop : z.is .separator ";")
      (name : x.kind = .identifier) (equals : q.is .assignment "=") (value : Expression us f)
      (headerEnd : c.is .bracket ")") (opens : l.is .bracket "\x7b") (inner : Statements bs body)
      (closes : r.is .bracket "\x7d") :
      Statement (k :: h :: is ++ ts ++ z :: x :: q :: us ++ c :: l :: bs ++ [r])
        (.forDo initial e (.assign { text := x.text } f {}) body {})

/-- The tokens spell the statements, one after the other. -/
inductive Statements : List Token → List Stmt → Prop
  | nil : Statements [] []
  | cons {ts us : List Token} {s : Stmt} {rest : List Stmt} (head : Statement ts s)
      (tail : Statements us rest) : Statements (ts ++ us) (s :: rest)

end

theorem Statements.concat {ts us : List Token} {body : List Stmt} {s : Stmt}
    (h : Statements ts body) (hs : Statement us s) : Statements (ts ++ us) (body ++ [s]) := by
  induction body generalizing ts with
  | nil =>
    cases h
    simpa using Statements.cons hs .nil
  | cons s' rest ih =>
    cases h with
    | cons head tail =>
      rw [List.append_assoc]
      exact .cons head (ih tail)

end Grammar

end Quadcode
