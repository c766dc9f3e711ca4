import CppGraduate.Lib.Scopes
import CppGraduate.ParaCL.Resolution

/-!
# Lexical scoping

What the scopes of a program mean, without a parser: a statement is read
with the scopes around it in hand, a block and a body are read with one
scope more, and whatever they declare is gone afterwards, because the
statement that follows is read with the scopes around *it*. The tree of a
block has the trees of its statements as branches, in order.

The parser has one current scope and one symbol table for all of it, and
moves the former in five different rules. That it builds the same trees and
finds the same errors is the result of this file.
-/

namespace ParaCL

/-! ## Reading a program with its scopes in hand -/

/-- The names declared around a place of the program, and the number of the
next declaration. -/
structure Names where
  scopes : Scopes String ℕ
  next : ℕ

/-- Inside a new scope. -/
def Names.opened (Γ : Names) : Names := ⟨Γ.scopes.opened, Γ.next⟩

/-- After a block: what was declared around it, and nothing else. Only the
numbers of declarations go on. -/
def Names.after (Γ inner : Names) : Names := ⟨Γ.scopes, inner.next⟩

/-- The left-hand side of an assignment: the declaration its name means, or
a new one in the innermost scope. -/
def Names.assigned (Γ : Names) (x : String) : ℕ × Names :=
  match Γ.scopes.lookup x with
  | some id => (id, Γ)
  | none => (Γ.next, ⟨Γ.scopes.declare x Γ.next, Γ.next + 1⟩)

/-- A scope with its branches. -/
def INode.addBranches : INode → List INode → INode := List.foldl .addBranch

/-- An expression. -/
def Expr.resolve (fs : Scopes String ℕ) : Expr → Except String INode
  | .plus l r => do return .operand (← l.resolve fs) .plus (← r.resolve fs)
  | .minus l r => do return .operand (← l.resolve fs) .minus (← r.resolve fs)
  | .mul l r => do return .operand (← l.resolve fs) .mul (← r.resolve fs)
  | .div l r => do return .operand (← l.resolve fs) .div (← r.resolve fs)
  | .mod l r => do return .operand (← l.resolve fs) .mod (← r.resolve fs)
  | .uminus e => do return .operand (.value 0) .minus (← e.resolve fs)
  | .name x =>
    match fs.lookup x with
    | some id => .ok (.decl id x)
    | none => .error undeclaredVariable
  | .value v => .ok (.value v)
  | .input => .ok (.operand .null .stdIn .null)

/-- A condition. -/
def LExpr.resolve (fs : Scopes String ℕ) : LExpr → Except String INode
  | .expr e => e.resolve fs
  | .rel l op r => do return .operand (← l.resolve fs) op.operation (← r.resolve fs)
  | .or l r => do return .operand (← l.resolve fs) .or (← r.resolve fs)
  | .and l r => do return .operand (← l.resolve fs) .and (← r.resolve fs)
  | .not e => do return .operand .null .not (← e.resolve fs)

mutual

/-- A statement: its tree, and the names after it. -/
def Stm.resolve : Stm → Names → Except String (INode × Names)
  | .assign x e, Γ => do
    let (id, Γ) := Γ.assigned x
    return (.operand (.decl id x) .assign (← e.resolve Γ.scopes), Γ)
  | .ifStm c body, Γ => do
    let cond ← c.resolve Γ.scopes
    let (branch, inner) ← body.resolve Γ.opened
    return (.ifNode cond (INode.emptyScope.addBranches [branch]), Γ.after inner)
  | .whileStm c body, Γ => do
    let cond ← c.resolve Γ.scopes
    let (branch, inner) ← body.resolve Γ.opened
    return (.whileNode cond (INode.emptyScope.addBranches [branch]), Γ.after inner)
  | .output e, Γ => do
    return (.operand .null .stdOut (← e.resolve Γ.scopes), Γ)

/-- A statement or a block. -/
def Body.resolve : Body → Names → Except String (INode × Names)
  | .stm s, Γ => s.resolve Γ
  | .scope ss, Γ => do
    let (branches, inner) ← ss.resolve Γ.opened
    return (INode.emptyScope.addBranches branches, Γ.after inner)

/-- The statements of a block: their trees in order. -/
def Stms.resolve : Stms → Names → Except String (List INode × Names)
  | .first s, Γ => do
    let (branch, Γ) ← s.resolve Γ
    return ([branch], Γ)
  | .next ss b, Γ => do
    let (branches, Γ) ← ss.resolve Γ
    let (branch, Γ) ← b.resolve Γ
    return (branches ++ [branch], Γ)

end

/-- **A whole program**, in a scope of its own with nothing around it. -/
def Stms.resolveProgram (ss : Stms) : Except String INode := do
  let (branches, _) ← ss.resolve ⟨[fun _ => none], 0⟩
  return INode.emptyScope.addBranches branches

/-! ## The current scope

Whatever a statement or a block does to `CurrentScope`, it is the same
afterwards, with the same branches and the same chain of scopes around it.
This needs nothing of the state. -/

namespace Parser

/-- A declaration leaves the scopes alone. -/
theorem access_scopes (p : Parser) (x : String) : (p.access x).2.scopes = p.scopes := by
  unfold access addSymbol
  split
  · rfl
  · split <;> rfl

/-- A branch is added to the innermost scope. -/
theorem addBranch_scopes {p : Parser} {s : OpenScope} {rest : List OpenScope}
    (h : p.scopes = s :: rest) (n : INode) :
    (p.addBranch n).scopes = ⟨s.id, .addBranch s.node n⟩ :: rest := by
  unfold addBranch
  rw [h]

end Parser

mutual

/-- **A statement leaves `CurrentScope` where it was.** -/
theorem Stm.parse_scopes : ∀ (s : Stm) {p p' : Parser} {n : INode},
    s.parse p = .ok (n, p') → p'.scopes = p.scopes
  | .assign x e, p, p', n, h => by
    unfold Stm.parse at h
    obtain ⟨r, -, h⟩ := bind_eq_ok.mp h
    cases h
    exact p.access_scopes x
  | .output e, p, p', n, h => by
    unfold Stm.parse at h
    obtain ⟨r, -, h⟩ := bind_eq_ok.mp h
    cases h
    rfl
  | .ifStm c body, p, p', n, h => by
    unfold Stm.parse at h
    obtain ⟨cond, -, h⟩ := bind_eq_ok.mp h
    obtain ⟨⟨node, q⟩, hbody, h⟩ := bind_eq_ok.mp h
    cases h
    show (q.addBranch node).scopes.tail = p.scopes
    rw [Parser.addBranch_scopes (Body.parse_scopes body hbody)]
    rfl
  | .whileStm c body, p, p', n, h => by
    unfold Stm.parse at h
    obtain ⟨cond, -, h⟩ := bind_eq_ok.mp h
    obtain ⟨⟨node, q⟩, hbody, h⟩ := bind_eq_ok.mp h
    cases h
    show (q.addBranch node).scopes.tail = p.scopes
    rw [Parser.addBranch_scopes (Body.parse_scopes body hbody)]
    rfl

/-- **A statement or a block leaves `CurrentScope` where it was.** -/
theorem Body.parse_scopes : ∀ (b : Body) {p p' : Parser} {n : INode},
    b.parse p = .ok (n, p') → p'.scopes = p.scopes
  | .stm s, p, p', n, h => Stm.parse_scopes s h
  | .scope ss, p, p', n, h => by
    unfold Body.parse at h
    obtain ⟨q, hq, h⟩ := bind_eq_ok.mp h
    cases h
    obtain ⟨branches, hscopes⟩ := Stms.parse_scopes ss (s := ⟨p.nextScope, .emptyScope⟩) rfl hq
    show q.scopes.tail = p.scopes
    rw [hscopes]
    rfl

/-- **A list of statements adds branches to `CurrentScope`** and to no other
scope. -/
theorem Stms.parse_scopes : ∀ (ss : Stms) {p p' : Parser} {s : OpenScope}
    {rest : List OpenScope}, p.scopes = s :: rest → ss.parse p = .ok p' →
    ∃ branches, p'.scopes = ⟨s.id, s.node.addBranches branches⟩ :: rest
  | .first st, p, p', s, rest, hs, h => by
    unfold Stms.parse at h
    obtain ⟨⟨node, q⟩, hst, h⟩ := bind_eq_ok.mp h
    cases h
    exact ⟨[node], Parser.addBranch_scopes ((Stm.parse_scopes st hst).trans hs) node⟩
  | .next ss b, p, p', s, rest, hs, h => by
    unfold Stms.parse at h
    obtain ⟨q, hq, h⟩ := bind_eq_ok.mp h
    obtain ⟨⟨node, r⟩, hb, h⟩ := bind_eq_ok.mp h
    cases h
    obtain ⟨branches, hscopes⟩ := Stms.parse_scopes ss hs hq
    refine ⟨branches ++ [node], ?_⟩
    rw [Parser.addBranch_scopes ((Body.parse_scopes b hb).trans hscopes)]
    unfold INode.addBranches
    rw [List.foldl_append]
    rfl

end

/-! ## The names around a place

The symbol table has the declarations of every scope that was ever opened.
Those of the open ones are the names around the place the parser is at. -/

namespace Parser

/-- **What is declared around the place the parser is at.** -/
def names (p : Parser) : Names := ⟨p.scopes.map fun s => p.table s.id, p.nextDecl⟩

/-- What is visible is what the names around mean. -/
theorem lookup_names (p : Parser) (x : String) : p.names.scopes.lookup x = p.env x := by
  show Scopes.lookup x (p.scopes.map fun s => p.table s.id) = visibleIn p.table x p.scopes
  induction p.scopes with
  | nil => rfl
  | cons s rest ih =>
    rw [List.map_cons, Scopes.lookup, ih, visibleIn]
    cases p.table s.id x <;> rfl

/-- **`visible` finds the declaration of the innermost open scope that has
one.** -/
theorem visible_eq_some_iff (p : Parser) (x : String) (n : INode) :
    p.visible x = some n ↔ ∃ inner s outer id, p.scopes = inner ++ s :: outer
      ∧ (∀ t ∈ inner, p.table t.id x = none) ∧ p.table s.id x = some id ∧ n = .decl id x := by
  rw [visible_eq_some]
  constructor
  · rintro ⟨id, hid, rfl⟩
    rw [← lookup_names, Scopes.lookup_eq_some_iff] at hid
    obtain ⟨inner, f, outer, hsplit, hinner, hf⟩ := hid
    obtain ⟨l, r, hscopes, rfl, hr⟩ := List.map_eq_append_iff.mp hsplit
    obtain ⟨s, r', rfl, rfl, rfl⟩ := List.map_eq_cons_iff.mp hr
    exact ⟨l, s, r', id, hscopes, fun t ht => hinner _ (List.mem_map_of_mem ht), hf, rfl⟩
  · rintro ⟨inner, s, outer, id, hscopes, hinner, hs, rfl⟩
    refine ⟨id, ?_, rfl⟩
    rw [← lookup_names, Scopes.lookup_eq_some_iff]
    refine ⟨inner.map fun t => p.table t.id, p.table s.id, outer.map fun t => p.table t.id, ?_,
      fun g hg => ?_, hs⟩
    · show p.scopes.map _ = _
      rw [hscopes, List.map_append, List.map_cons]
    · obtain ⟨t, ht, rfl⟩ := List.mem_map.mp hg
      exact hinner t ht

/-- **`visible` finds nothing** when no open scope has a declaration. -/
theorem visible_eq_none_iff (p : Parser) (x : String) :
    p.visible x = none ↔ ∀ s ∈ p.scopes, p.table s.id x = none := by
  unfold visible
  rw [Option.map_eq_none_iff, ← lookup_names, Scopes.lookup_eq_none_iff]
  exact List.forall_mem_map

/-- A branch declares nothing. -/
theorem names_addBranch (p : Parser) (n : INode) : (p.addBranch n).names = p.names := by
  unfold addBranch
  split
  · next s rest hs =>
    unfold names
    rw [hs]
    rfl
  · rfl

/-- A new scope has no declarations. -/
theorem Ok.names_push {p : Parser} (h : p.Ok) : p.push.names = p.names.opened := by
  have hnew : p.table p.nextScope = fun _ => none := by
    funext x
    cases htab : p.table p.nextScope x with
    | none => rfl
    | some id => exact absurd (h.table_lt _ x id htab).1 (Nat.lt_irrefl _)
  show Names.mk (p.table p.nextScope :: _) _ = ⟨(fun _ => none) :: _, _⟩
  rw [hnew]
  rfl

/-- **After a scope was closed** the names around are those there were when
it was opened. -/
theorem Ok.names_close {p q : Parser} (h : p.Ok) (hq : Steps p.push q) :
    q.resetScope.names = p.names.after q.names := by
  have hscopes : q.resetScope.scopes = p.scopes := hq.tail
  show Names.mk (q.resetScope.scopes.map fun s => q.table s.id) q.nextDecl = _
  rw [hscopes]
  refine congrArg (fun l => Names.mk l q.nextDecl) (List.map_congr_left fun s hs => ?_)
  have hlt := h.open_lt s hs
  refine hq.table s.id (Nat.lt_succ_of_lt hlt) fun hhead => ?_
  have heq : p.nextScope = s.id := Option.some.inj hhead
  exact absurd hlt (heq ▸ Nat.lt_irrefl _)

/-- **The left-hand side of an assignment** means what it does in the names
around, and is declared in the innermost scope when it means nothing. -/
theorem Ok.names_access {p : Parser} (h : p.Ok) (x : String) :
    (p.access x).1 = .decl (p.names.assigned x).1 x
      ∧ (p.access x).2.names = (p.names.assigned x).2 := by
  unfold Parser.access visible Names.assigned
  rw [lookup_names]
  cases hx : p.env x with
  | some id => exact ⟨rfl, rfl⟩
  | none =>
    refine ⟨rfl, ?_⟩
    obtain ⟨s, rest, hs⟩ := List.exists_cons_of_ne_nil h.ne
    have hnodup := h.nodup
    rw [hs, List.map_cons, List.nodup_cons] at hnodup
    simp only [Option.map_none, addSymbol, names, hs, List.map_cons, Scopes.declare,
      Function.update_self]
    refine congrArg (fun l => Names.mk (_ :: l) _) (List.map_congr_left fun t ht => ?_)
    refine Function.update_of_ne (fun heq => hnodup.1 ?_) _ _
    rw [← heq]
    exact List.mem_map_of_mem ht

end Parser

/-! ## The parser reads programs as their scopes say -/

/-- **Expressions** mean the same. -/
theorem Expr.parse_eq_resolve (p : Parser) (e : Expr) : e.parse p = e.resolve p.names.scopes := by
  induction e with
  | plus l r ihl ihr | minus l r ihl ihr | mul l r ihl ihr | div l r ihl ihr
  | mod l r ihl ihr => rw [Expr.parse, Expr.resolve, ihl, ihr]
  | uminus e ih => rw [Expr.parse, Expr.resolve, ih]
  | name x =>
    rw [Expr.parse, Expr.resolve, Parser.lookup_names, Parser.visible]
    cases p.env x <;> rfl
  | value v => rfl
  | input => rfl

/-- **Conditions** mean the same. -/
theorem LExpr.parse_eq_resolve (p : Parser) (e : LExpr) :
    e.parse p = e.resolve p.names.scopes := by
  induction e with
  | expr e => exact Expr.parse_eq_resolve p e
  | rel l op r => rw [LExpr.parse, LExpr.resolve, Expr.parse_eq_resolve, Expr.parse_eq_resolve]
  | or l r ihl ihr | and l r ihl ihr => rw [LExpr.parse, LExpr.resolve, ihl, ihr]
  | not e ih => rw [LExpr.parse, LExpr.resolve, ih]

/-- What is compared of a phrase that was read: its tree and the names after
it. -/
def treeAndNames : INode × Parser → INode × Names := fun r => (r.1, r.2.names)

/-- The body of an `if` or a `while`, in a scope of its own. -/
theorem head_eq {p : Parser} (hp : p.Ok) {r : INode × Parser} (h : Parsed p.push r.1 r.2)
    (mk : INode → INode) :
    treeAndNames (mk (r.2.addBranch r.1).currentScope, (r.2.addBranch r.1).resetScope)
      = (mk (INode.emptyScope.addBranches [r.1]), p.names.after r.2.names) := by
  obtain ⟨hsteps, hin⟩ := (ParsedIn.push hp).addBranch h
  refine Prod.ext ?_ ?_
  · show mk (r.2.addBranch r.1).currentScope = _
    unfold Parser.currentScope
    rw [hin.scopes]
    rfl
  · show (r.2.addBranch r.1).resetScope.names = _
    rw [hp.names_close hsteps, Parser.names_addBranch]

mutual

/-- **A statement** is read as its scopes say. -/
theorem Stm.parse_eq_resolve : ∀ (s : Stm) {p : Parser}, p.Ok →
    (s.parse p).map treeAndNames = s.resolve p.names
  | .assign x e, p, hp => by
    obtain ⟨hdecl, hnames⟩ := hp.names_access x
    obtain ⟨lval, q, hq⟩ : ∃ lval q, p.access x = (lval, q) := ⟨_, _, rfl⟩
    obtain ⟨id, Γ, hΓ⟩ : ∃ id Γ, p.names.assigned x = (id, Γ) := ⟨_, _, rfl⟩
    rw [hq, hΓ] at hdecl hnames
    change lval = .decl id x at hdecl
    change q.names = Γ at hnames
    subst hdecl hnames
    unfold Stm.parse Stm.resolve
    rw [hq, hΓ]
    dsimp only
    rw [Expr.parse_eq_resolve]
    cases e.resolve q.names.scopes <;> rfl
  | .output e, p, hp => by
    unfold Stm.parse Stm.resolve
    rw [Expr.parse_eq_resolve]
    cases e.resolve p.names.scopes <;> rfl
  | .ifStm c body, p, hp => by
    have hbody := Body.parse_eq_resolve body hp.push.1
    unfold Stm.parse Stm.resolve
    rw [LExpr.parse_eq_resolve, ← hp.names_push, ← hbody]
    cases c.resolve p.names.scopes with
    | error m => rfl
    | ok cond =>
      cases hq : body.parse p.push with
      | error m => rfl
      | ok r =>
        exact congrArg Except.ok (head_eq hp (Body.parse_spec body hp.push.1 hq) (.ifNode cond))
  | .whileStm c body, p, hp => by
    have hbody := Body.parse_eq_resolve body hp.push.1
    unfold Stm.parse Stm.resolve
    rw [LExpr.parse_eq_resolve, ← hp.names_push, ← hbody]
    cases c.resolve p.names.scopes with
    | error m => rfl
    | ok cond =>
      cases hq : body.parse p.push with
      | error m => rfl
      | ok r =>
        exact congrArg Except.ok (head_eq hp (Body.parse_spec body hp.push.1 hq) (.whileNode cond))

/-- **A statement or a block** is read as its scopes say. -/
theorem Body.parse_eq_resolve : ∀ (b : Body) {p : Parser}, p.Ok →
    (b.parse p).map treeAndNames = b.resolve p.names
  | .stm s, p, hp => Stm.parse_eq_resolve s hp
  | .scope ss, p, hp => by
    have hss := Stms.parse_eq_resolve ss hp.push.1 (ParsedIn.push hp)
    unfold Body.parse Body.resolve
    rw [← hp.names_push]
    cases hq : ss.parse p.push with
    | error m =>
      rw [hss.1 m hq]
      rfl
    | ok q =>
      obtain ⟨branches, hscopes, hresolve⟩ := hss.2 q hq
      obtain ⟨hsteps, -⟩ := Stms.parse_spec ss hp.push.1 (ParsedIn.push hp) hq
      rw [hresolve]
      refine congrArg Except.ok (Prod.ext ?_ (hp.names_close hsteps))
      show q.currentScope = _
      unfold Parser.currentScope
      rw [hscopes]

/-- **A list of statements** is read as its scopes say: its trees are the
branches the current scope gets, in order. -/
theorem Stms.parse_eq_resolve : ∀ (ss : Stms) {env : INode.Env} {p : Parser} {s : OpenScope}
    {rest : List OpenScope}, p.Ok → ParsedIn env p s rest →
    (∀ m, ss.parse p = .error m → ss.resolve p.names = .error m)
      ∧ ∀ p', ss.parse p = .ok p' → ∃ branches,
        p'.scopes = ⟨s.id, s.node.addBranches branches⟩ :: rest
          ∧ ss.resolve p.names = .ok (branches, p'.names)
  | .first st, env, p, s, rest, hp, hin => by
    have hst := Stm.parse_eq_resolve st hp
    unfold Stms.parse Stms.resolve
    rw [← hst]
    cases hq : st.parse p with
    | error m =>
      refine ⟨fun m' h => ?_, nofun⟩
      cases h
      rfl
    | ok r =>
      refine ⟨nofun, fun p' h => ?_⟩
      cases h
      have hscopes := (Stm.parse_scopes st hq).trans hin.scopes
      refine ⟨[r.1], Parser.addBranch_scopes hscopes r.1, ?_⟩
      rw [Parser.names_addBranch]
      rfl
  | .next ss b, env, p, s, rest, hp, hin => by
    have hss := Stms.parse_eq_resolve ss hp hin
    unfold Stms.parse Stms.resolve
    cases hq : ss.parse p with
    | error m =>
      refine ⟨fun m' h => ?_, nofun⟩
      cases h
      rw [hss.1 m hq]
      rfl
    | ok q =>
      obtain ⟨branches, hscopes, hresolve⟩ := hss.2 q hq
      obtain ⟨hsteps, -⟩ := Stms.parse_spec ss hp hin hq
      rw [hresolve]
      change (∀ m, (b.parse q >>= fun r => Except.ok (r.2.addBranch r.1)) = .error m →
          (b.resolve q.names >>= fun r => Except.ok (branches ++ [r.1], r.2)) = .error m)
        ∧ ∀ p', (b.parse q >>= fun r => Except.ok (r.2.addBranch r.1)) = .ok p' → ∃ bs,
          p'.scopes = ⟨s.id, s.node.addBranches bs⟩ :: rest
          ∧ (b.resolve q.names >>= fun r => Except.ok (branches ++ [r.1], r.2))
            = .ok (bs, p'.names)
      rw [← Body.parse_eq_resolve b hsteps.ok]
      cases hr : b.parse q with
      | error m =>
        refine ⟨fun m' h => ?_, nofun⟩
        cases h
        rfl
      | ok r =>
        refine ⟨nofun, fun p' h => ?_⟩
        cases h
        refine ⟨branches ++ [r.1], ?_, ?_⟩
        · rw [Parser.addBranch_scopes ((Body.parse_scopes b hr).trans hscopes)]
          unfold INode.addBranches
          rw [List.foldl_append]
          rfl
        · rw [Parser.names_addBranch]
          rfl

end

/-- **The parser's scoping is lexical.** Every program is read as its scopes
say: the same tree, with every statement a branch of the scope around it, in
order, and every name the declaration it means there; or the same error.
`CurrentScope` is the root at the end, and the scope it was before after
every statement and every block, with the branches it had. A name stands for
the declaration of the innermost open scope that has one, and for none when
no open scope has – whatever closed ones had. -/
theorem parseProgram_lexical (ss : Stms) :
    (parseProgram ss).map Prod.fst = ss.resolveProgram
      ∧ (∀ p, ss.parse Parser.start = .ok p → p.scopes = [⟨0, p.currentScope⟩])
      ∧ (∀ (b : Body) (p p' : Parser) (n : INode), b.parse p = .ok (n, p') →
          p'.scopes = p.scopes)
      ∧ (∀ (p : Parser) (x : String) (n : INode), p.visible x = some n ↔
          ∃ inner s outer id, p.scopes = inner ++ s :: outer
            ∧ (∀ t ∈ inner, p.table t.id x = none) ∧ p.table s.id x = some id ∧ n = .decl id x)
      ∧ ∀ (p : Parser) (x : String),
          p.visible x = none ↔ ∀ s ∈ p.scopes, p.table s.id x = none := by
  have hin : ParsedIn (fun _ => none) Parser.start ⟨0, .emptyScope⟩ [] :=
    ⟨rfl, trivial, rfl, trivial⟩
  obtain ⟨herror, hok⟩ := Stms.parse_eq_resolve ss Parser.ok_start hin
  refine ⟨?_, fun p h => ?_, fun b p p' n h => Body.parse_scopes b h,
    fun p => p.visible_eq_some_iff, fun p => p.visible_eq_none_iff⟩
  · unfold parseProgram Stms.resolveProgram
    change _ = (ss.resolve Parser.start.names >>= fun r =>
      Except.ok (INode.emptyScope.addBranches r.1))
    cases hp : ss.parse Parser.start with
    | error m =>
      rw [herror m hp]
      rfl
    | ok p =>
      obtain ⟨branches, hscopes, hresolve⟩ := hok p hp
      rw [hresolve]
      show Except.ok p.currentScope = _
      unfold Parser.currentScope
      rw [hscopes]
      rfl
  · obtain ⟨branches, hscopes, -⟩ := hok p h
    unfold Parser.currentScope
    rw [hscopes]

/-- A name declared in a block that has been closed. -/
example : (parseProgram (.next (.next (.first (.assign "x" .input))
      (.scope (.first (.assign "y" .input)))) (.stm (.output (.name "y"))))).map Prod.fst
    = .error undeclaredVariable := by
  rfl

end ParaCL
