import CppGraduate.ParaCL.Parser
import CppGraduate.ParaCL.Trees

/-!
# What the parser's actions build

The tree of every accepted program is scoped: names are resolved to the
declarations visible where they stand. The proof follows the actions through
the grammar with one invariant on the parser's state – scope objects and
declarations are numbered in the order in which they were made, no two names
share a declaration, and the generator has a slot for every name declared –
and one relation between states, `Steps`: what a phrase of the program
leaves as it was. Only the innermost open scope gets new symbols, so that
what is visible after a block is what was visible before it.
-/

namespace ParaCL

open Ir

/-! ## Expressions -/

/-- The parts of a result put together from two. -/
theorem bind_eq_ok {α β : Type} {m : Except String α} {f : α → Except String β} {b : β} :
    (m >>= f) = .ok b ↔ ∃ a, m = .ok a ∧ f a = .ok b := by
  constructor
  · intro h
    cases m with
    | ok a => exact ⟨a, rfl, h⟩
    | error e => cases h
  · rintro ⟨a, rfl, h⟩
    exact h

/-- A visible name is resolved to its declaration. -/
theorem Parser.visible_eq_some {p : Parser} {x : String} {n : INode} :
    p.visible x = some n ↔ ∃ id, p.env x = some id ∧ n = .decl id x := by
  unfold visible
  rw [Option.map_eq_some_iff]
  exact exists_congr fun id => and_congr_right' eq_comm

/-- The tree of an arithmetic operation. -/
theorem Expr.parse_binary {p : Parser} {l r : Expr} {op : Operation} {n : INode}
    (hop : op.IsArith) (ihl : ∀ {n}, l.parse p = .ok n → n.IsExpr ∧ n.Reads p.env)
    (ihr : ∀ {n}, r.parse p = .ok n → n.IsExpr ∧ n.Reads p.env)
    (h : (do return INode.operand (← l.parse p) op (← r.parse p)) = Except.ok n) :
    n.IsExpr ∧ n.Reads p.env := by
  obtain ⟨a, ha, h⟩ := bind_eq_ok.mp h
  obtain ⟨b, hb, h⟩ := bind_eq_ok.mp h
  cases h
  have hin : op ≠ .stdIn := by
    rintro rfl
    exact absurd hop (by decide)
  refine ⟨?_, (ihl ha).2, (ihr hb).2⟩
  unfold INode.IsExpr
  rw [if_neg hin]
  exact ⟨hop, (ihl ha).1, (ihr hb).1⟩

/-- **The tree of an expression** has the shape of one and reads visible
declarations. -/
theorem Expr.parse_spec {p : Parser} {e : Expr} {n : INode} (h : e.parse p = .ok n) :
    n.IsExpr ∧ n.Reads p.env := by
  induction e generalizing n with
  | plus l r ihl ihr => exact parse_binary (by decide) ihl ihr h
  | minus l r ihl ihr => exact parse_binary (by decide) ihl ihr h
  | mul l r ihl ihr => exact parse_binary (by decide) ihl ihr h
  | div l r ihl ihr => exact parse_binary (by decide) ihl ihr h
  | mod l r ihl ihr => exact parse_binary (by decide) ihl ihr h
  | uminus e ih =>
    obtain ⟨a, ha, h⟩ := bind_eq_ok.mp h
    cases h
    refine ⟨?_, trivial, (ih ha).2⟩
    simp [INode.IsExpr, Operation.IsArith, (ih ha).1]
  | name x =>
    unfold Expr.parse at h
    split at h
    · rename_i decl hvis
      obtain ⟨id, hid, rfl⟩ := Parser.visible_eq_some.mp hvis
      cases h
      exact ⟨trivial, hid⟩
    · cases h
  | value v =>
    cases h
    exact ⟨trivial, trivial⟩
  | input =>
    cases h
    exact ⟨⟨rfl, rfl⟩, trivial, trivial⟩

/-- **The tree of a condition** has the shape of one and reads visible
declarations. -/
theorem LExpr.parse_spec {p : Parser} {e : LExpr} {n : INode} (h : e.parse p = .ok n) :
    n.IsCond ∧ n.Reads p.env := by
  induction e generalizing n with
  | expr e =>
    obtain ⟨hshape, hreads⟩ := Expr.parse_spec h
    exact ⟨hshape.isCond, hreads⟩
  | rel l op r =>
    obtain ⟨a, ha, h⟩ := bind_eq_ok.mp h
    obtain ⟨b, hb, h⟩ := bind_eq_ok.mp h
    cases h
    obtain ⟨hsa, hra⟩ := Expr.parse_spec ha
    obtain ⟨hsb, hrb⟩ := Expr.parse_spec hb
    refine ⟨?_, hra, hrb⟩
    cases op <;> exact ⟨hsa, hsb⟩
  | or l r ihl ihr =>
    obtain ⟨a, ha, h⟩ := bind_eq_ok.mp h
    obtain ⟨b, hb, h⟩ := bind_eq_ok.mp h
    cases h
    exact ⟨⟨(ihl ha).1, (ihr hb).1⟩, (ihl ha).2, (ihr hb).2⟩
  | and l r ihl ihr =>
    obtain ⟨a, ha, h⟩ := bind_eq_ok.mp h
    obtain ⟨b, hb, h⟩ := bind_eq_ok.mp h
    cases h
    exact ⟨⟨(ihl ha).1, (ihr hb).1⟩, (ihl ha).2, (ihr hb).2⟩
  | not e ih =>
    obtain ⟨a, ha, h⟩ := bind_eq_ok.mp h
    cases h
    exact ⟨⟨rfl, (ih ha).1⟩, trivial, (ih ha).2⟩

/-! ## The state of the parser -/

/-- **While a program is parsed** the function consists of the entry block
with the slots made so far, and different names have different slots. -/
structure CodeGen.Declaring (g : CodeGen) : Prop where
  /-- The insertion point is the entry block. -/
  point : g.builder.point = 0
  /-- There is no other block. -/
  nextBlock : g.builder.nextBlock = 1
  /-- The entry block makes slots and does nothing else. -/
  entry : ∀ i ∈ g.builder.code 0, ∃ slot, i = .alloca slot
  /-- Blocks that were not created are empty. -/
  others : ∀ l, l ≠ 0 → g.builder.code l = []
  /-- Slots are numbered in the order in which they were made. -/
  slot_lt : ∀ x slot, g.namedValues x = some slot → slot < g.nextSlot
  /-- No two names share a slot. -/
  slot_inj : ∀ x y slot, g.namedValues x = some slot → g.namedValues y = some slot → x = y

/-- At the beginning. -/
theorem CodeGen.declaring_start : CodeGen.start.Declaring where
  point := rfl
  nextBlock := rfl
  entry _ h := nomatch h
  others _ _ := rfl
  slot_lt _ _ h := nomatch h
  slot_inj _ _ _ h := nomatch h

/-- A declaration makes one more slot. -/
theorem CodeGen.Declaring.addDecl {g : CodeGen} (h : g.Declaring) (x : String) :
    (g.addDecl x).Declaring where
  point := h.point
  nextBlock := h.nextBlock
  entry i hi := by
    simp only [CodeGen.addDecl, Builder.prepend, Function.update_self, List.mem_cons] at hi
    rcases hi with rfl | hi
    · exact ⟨_, rfl⟩
    · exact h.entry i hi
  others l hl := by
    simp only [CodeGen.addDecl, Builder.prepend, Function.update_of_ne hl]
    exact h.others l hl
  slot_lt y slot hy := by
    simp only [CodeGen.addDecl, Function.update_apply] at hy ⊢
    split_ifs at hy
    · cases hy
      exact Nat.lt_succ_self _
    · exact Nat.lt_succ_of_lt (h.slot_lt y slot hy)
  slot_inj y z slot hy hz := by
    simp only [CodeGen.addDecl, Function.update_apply] at hy hz
    split_ifs at hy hz with hyx hzx hzx
    · rw [hyx, hzx]
    · cases hy
      exact absurd (h.slot_lt z _ hz) (Nat.lt_irrefl _)
    · cases hz
      exact absurd (h.slot_lt y _ hy) (Nat.lt_irrefl _)
    · exact h.slot_inj y z slot hy hz

/-- **The invariant of the parser's state.** -/
structure Parser.Ok (p : Parser) : Prop where
  /-- A scope is open. -/
  ne : p.scopes ≠ []
  /-- Open scopes were made before. -/
  open_lt : ∀ s ∈ p.scopes, s.id < p.nextScope
  /-- No scope is open twice. -/
  nodup : (p.scopes.map OpenScope.id).Nodup
  /-- The symbol table knows scopes and declarations made before. -/
  table_lt : ∀ i x id, p.table i x = some id → i < p.nextScope ∧ id < p.nextDecl
  /-- No two names share a declaration. -/
  inj : ∀ i j x y id, p.table i x = some id → p.table j y = some id → x = y
  /-- Every name declared has a slot. -/
  named : ∀ i x id, p.table i x = some id → (p.gen.namedValues x).isSome
  /-- The generator is in order. -/
  gen : p.gen.Declaring

/-- At the beginning. -/
theorem Parser.ok_start : Parser.start.Ok where
  ne := List.cons_ne_nil _ _
  open_lt s hs := by
    rw [List.mem_singleton.mp hs]
    exact Nat.one_pos
  nodup := List.pairwise_singleton _ _
  table_lt _ _ _ h := nomatch h
  inj _ _ _ _ _ h := nomatch h
  named _ _ _ h := nomatch h
  gen := CodeGen.declaring_start

namespace Parser

/-- What is visible depends on the symbols of the open scopes. -/
theorem visibleIn_congr {table table' : ℕ → String → Option ℕ} {x : String}
    {scopes scopes' : List OpenScope} (hids : scopes'.map OpenScope.id = scopes.map OpenScope.id)
    (h : ∀ s ∈ scopes, table' s.id x = table s.id x) :
    visibleIn table' x scopes' = visibleIn table x scopes := by
  induction scopes generalizing scopes' with
  | nil =>
    rw [List.map_eq_nil_iff.mp hids]
    rfl
  | cons s rest ih =>
    obtain ⟨s', rest', rfl, hs, hrest⟩ := List.map_eq_cons_iff.mp hids
    have htail := ih hrest (fun t ht => h t (List.mem_cons_of_mem s ht))
    unfold visibleIn
    rw [hs, h s List.mem_cons_self, htail]

/-- A visible declaration is a symbol of an open scope. -/
theorem exists_of_visibleIn {table : ℕ → String → Option ℕ} {x : String} {id : ℕ}
    {scopes : List OpenScope} (h : visibleIn table x scopes = some id) :
    ∃ s ∈ scopes, table s.id x = some id := by
  induction scopes with
  | nil => cases h
  | cons s rest ih =>
    unfold visibleIn at h
    split at h
    · rename_i hs
      cases h
      exact ⟨s, List.mem_cons_self, hs⟩
    · obtain ⟨t, ht, htx⟩ := ih h
      exact ⟨t, List.mem_cons_of_mem s ht, htx⟩

/-- Every visible name has a slot. -/
theorem Ok.env_named {p : Parser} (h : p.Ok) {x : String} {id : ℕ} (hx : p.env x = some id) :
    (p.gen.namedValues x).isSome := by
  obtain ⟨s, -, hs⟩ := exists_of_visibleIn hx
  exact h.named s.id x id hs

/-- **What a phrase leaves as it was**: the chain of open scopes, and the
symbols of all but the innermost one. -/
structure Steps (p p' : Parser) : Prop where
  /-- The invariant holds afterwards. -/
  ok : p'.Ok
  /-- The same scopes are open. -/
  ids : p'.scopes.map OpenScope.id = p.scopes.map OpenScope.id
  /-- All but the innermost have the same branches. -/
  tail : p'.scopes.tail = p.scopes.tail
  /-- Scopes may have been made. -/
  nextScope_le : p.nextScope ≤ p'.nextScope
  /-- The symbols of the other scopes are the same. -/
  table : ∀ i, i < p.nextScope → i ∉ (p.scopes.map OpenScope.id).head? → p'.table i = p.table i
  /-- No slot was lost. -/
  named : ∀ x, (p.gen.namedValues x).isSome → (p'.gen.namedValues x).isSome

theorem Steps.refl {p : Parser} (h : p.Ok) : Steps p p :=
  ⟨h, rfl, rfl, le_rfl, fun _ _ _ => rfl, fun _ => id⟩

theorem Steps.trans {p q r : Parser} (hpq : Steps p q) (hqr : Steps q r) : Steps p r where
  ok := hqr.ok
  ids := hqr.ids.trans hpq.ids
  tail := hqr.tail.trans hpq.tail
  nextScope_le := hpq.nextScope_le.trans hqr.nextScope_le
  table i hi hne := by
    rw [hqr.table i (lt_of_lt_of_le hi hpq.nextScope_le) (by rwa [hpq.ids]), hpq.table i hi hne]
  named x hx := hqr.named x (hpq.named x hx)

/-- Adding a branch to the innermost scope. -/
theorem Ok.addBranch {p : Parser} (h : p.Ok) (n : INode) :
    Steps p (p.addBranch n) ∧ (p.addBranch n).env = p.env := by
  obtain ⟨s, rest, hs⟩ := List.exists_cons_of_ne_nil h.ne
  have hids : (p.addBranch n).scopes.map OpenScope.id = p.scopes.map OpenScope.id := by
    simp only [Parser.addBranch, hs, List.map_cons]
  have htail : (p.addBranch n).scopes.tail = p.scopes.tail := by
    simp only [Parser.addBranch, hs, List.tail_cons]
  have htable : (p.addBranch n).table = p.table := by simp only [Parser.addBranch, hs]
  have hscope : (p.addBranch n).nextScope = p.nextScope := by simp only [Parser.addBranch, hs]
  have hdecl : (p.addBranch n).nextDecl = p.nextDecl := by simp only [Parser.addBranch, hs]
  have hgen : (p.addBranch n).gen = p.gen := by simp only [Parser.addBranch, hs]
  refine ⟨⟨⟨?_, ?_, ?_, ?_, ?_, ?_, ?_⟩, hids, htail, hscope.ge, ?_, ?_⟩, ?_⟩
  · intro hnil
    rw [hnil, hs] at hids
    cases hids
  · intro t ht
    have hmem : t.id ∈ p.scopes.map OpenScope.id := hids ▸ List.mem_map_of_mem ht
    obtain ⟨u, hu, hut⟩ := List.mem_map.mp hmem
    rw [hscope, ← hut]
    exact h.open_lt u hu
  · rw [hids]
    exact h.nodup
  · rw [htable, hscope, hdecl]
    exact h.table_lt
  · rw [htable]
    exact h.inj
  · rw [htable, hgen]
    exact h.named
  · rw [hgen]
    exact h.gen
  · rw [htable]
    exact fun _ _ _ => rfl
  · rw [hgen]
    exact fun _ => id
  · funext x
    exact visibleIn_congr hids (fun t _ => by rw [htable])

/-- Opening a scope. -/
theorem Ok.push {p : Parser} (h : p.Ok) : p.push.Ok ∧ p.push.env = p.env := by
  refine ⟨⟨List.cons_ne_nil _ _, ?_, ?_, ?_, h.inj, h.named, h.gen⟩, ?_⟩
  · intro s hs
    rcases List.mem_cons.mp hs with rfl | hs
    · exact Nat.lt_succ_self _
    · exact Nat.lt_succ_of_lt (h.open_lt s hs)
  · refine List.nodup_cons.mpr ⟨fun hmem => ?_, h.nodup⟩
    obtain ⟨s, hs, hid⟩ := List.mem_map.mp hmem
    exact absurd (h.open_lt s hs) (hid ▸ Nat.lt_irrefl _)
  · intro i x id hi
    exact ⟨Nat.lt_succ_of_lt (h.table_lt i x id hi).1, (h.table_lt i x id hi).2⟩
  · funext x
    have hnew : p.table p.nextScope x = none := by
      cases htab : p.table p.nextScope x with
      | none => rfl
      | some id => exact absurd (h.table_lt _ x id htab).1 (Nat.lt_irrefl _)
    show visibleIn p.table x (_ :: p.scopes) = visibleIn p.table x p.scopes
    rw [visibleIn, hnew]

/-- **Closing a scope** leaves everything outside it as it was when it was
opened. -/
theorem Ok.close {p q : Parser} (h : p.Ok) (hq : Steps p.push q) :
    Steps p q.resetScope ∧ q.resetScope.scopes = p.scopes ∧ q.resetScope.env = p.env := by
  have hscopes : q.resetScope.scopes = p.scopes := hq.tail
  have htable : ∀ i, i < p.nextScope → q.resetScope.table i = p.table i := by
    intro i hi
    refine hq.table i (Nat.lt_succ_of_lt hi) (fun hhead => ?_)
    cases hhead
    exact Nat.lt_irrefl _ hi
  refine ⟨⟨⟨?_, ?_, ?_, hq.ok.table_lt, hq.ok.inj, hq.ok.named, hq.ok.gen⟩, ?_, ?_, ?_, ?_, ?_⟩,
    hscopes, ?_⟩
  · rw [hscopes]
    exact h.ne
  · rw [hscopes]
    exact fun s hs => lt_of_lt_of_le (Nat.lt_succ_of_lt (h.open_lt s hs)) hq.nextScope_le
  · rw [hscopes]
    exact h.nodup
  · rw [hscopes]
  · rw [hscopes]
  · exact (Nat.le_succ _).trans hq.nextScope_le
  · exact fun i hi _ => htable i hi
  · exact hq.named
  · funext x
    exact visibleIn_congr (by rw [hscopes]) (fun s hs => by rw [htable s.id (h.open_lt s hs)])

/-- **The left-hand side of an assignment** is the visible declaration of
its name, or a new one, which is visible from then on. -/
theorem Ok.access {p : Parser} (h : p.Ok) (x : String) :
    ∃ id p', p.access x = (.decl id x, p') ∧ INode.Resolves p.env id x ∧ Steps p p'
      ∧ p'.scopes = p.scopes ∧ p'.env = Function.update p.env x (some id) := by
  unfold Parser.access
  cases hx : p.env x with
  | some id =>
    have hvis : p.visible x = some (.decl id x) := by
      unfold visible
      rw [hx, Option.map_some]
    rw [hvis]
    exact ⟨id, p, rfl, Or.inl hx, Steps.refl h, rfl, (Function.update_eq_self_iff.mpr hx.symm).symm⟩
  | none =>
    have hvis : p.visible x = none := by
      unfold visible
      rw [hx, Option.map_none]
    rw [hvis]
    obtain ⟨s, rest, hs⟩ := List.exists_cons_of_ne_nil h.ne
    have hslt : s.id < p.nextScope := h.open_lt s (hs ▸ List.mem_cons_self)
    have hfresh : ∀ i y id, p.table i y = some id → id ≠ p.nextDecl := fun i y id hi =>
      (h.table_lt i y id hi).2.ne
    have htable : ∀ i y, (p.addSymbol x p.nextDecl).table i y
        = if i = s.id ∧ y = x then some p.nextDecl else p.table i y := by
      intro i y
      simp only [Parser.addSymbol, hs, Function.update_apply]
      by_cases hi : i = s.id
      · subst hi
        by_cases hy : y = x <;> simp [hy]
      · simp [hi]
    have hscopes : (p.addSymbol x p.nextDecl).scopes = p.scopes := by
      simp only [Parser.addSymbol, hs]
    have hnext : (p.addSymbol x p.nextDecl).nextScope = p.nextScope := by
      simp only [Parser.addSymbol, hs]
    -- the name gets a fresh declaration in the innermost scope
    refine ⟨p.nextDecl, _, rfl, Or.inr ⟨hx, fun y hy => ?_⟩, ⟨⟨?_, ?_, ?_, ?_, ?_, ?_, ?_⟩,
      ?_, ?_, hnext.ge, ?_, ?_⟩, hscopes, ?_⟩
    · obtain ⟨t, -, ht⟩ := exists_of_visibleIn hy
      exact hfresh _ _ _ ht rfl
    · exact hscopes ▸ h.ne
    · exact fun t ht => hnext ▸ h.open_lt t (hscopes ▸ ht)
    · exact hscopes ▸ h.nodup
    · intro i y id hi
      have hi' := (htable i y).symm.trans hi
      show i < (p.addSymbol x p.nextDecl).nextScope ∧ id < p.nextDecl + 1
      rw [hnext]
      split_ifs at hi' with hc
      · cases hi'
        exact ⟨hc.1 ▸ hslt, Nat.lt_succ_self _⟩
      · exact ⟨(h.table_lt i y id hi').1, Nat.lt_succ_of_lt (h.table_lt i y id hi').2⟩
    · intro i j y z id hi hj
      have hi' := (htable i y).symm.trans hi
      have hj' := (htable j z).symm.trans hj
      split_ifs at hi' hj' with hc hd hd
      · rw [hc.2, hd.2]
      · cases hi'
        exact absurd rfl (hfresh j z _ hj')
      · cases hj'
        exact absurd rfl (hfresh i y _ hi')
      · exact h.inj i j y z id hi' hj'
    · intro i y id hi
      have hi' := (htable i y).symm.trans hi
      show (Function.update p.gen.namedValues x _ y).isSome
      rw [Function.update_apply]
      split_ifs with hy
      · rfl
      · rw [if_neg (fun hc => hy hc.2)] at hi'
        exact h.named i y id hi'
    · exact h.gen.addDecl x
    · rw [hscopes]
    · rw [hscopes]
    · intro i hi hne
      funext y
      have his : i ≠ s.id := by
        rintro rfl
        exact hne (by rw [hs]; rfl)
      exact (htable i y).trans (if_neg (fun hc => his hc.1))
    · intro y hy
      show (Function.update p.gen.namedValues x _ y).isSome
      rw [Function.update_apply]
      split_ifs
      · rfl
      · exact hy
    · funext y
      show visibleIn (p.addSymbol x p.nextDecl).table y (p.addSymbol x p.nextDecl).scopes = _
      rw [hscopes, Function.update_apply]
      split_ifs with hy
      · rw [hs, visibleIn, htable, if_pos ⟨rfl, hy⟩]
      · refine visibleIn_congr rfl (fun t _ => ?_)
        rw [htable, if_neg (fun hc => hy hc.2)]

end Parser

/-! ## Statements -/

/-- **What parsing a statement or a block says about its tree.** -/
structure Parsed (p : Parser) (n : INode) (p' : Parser) : Prop where
  /-- The state moves on. -/
  steps : Parser.Steps p p'
  /-- The branches are added to the open scopes by the enclosing phrase. -/
  scopes : p'.scopes = p.scopes
  /-- What is visible afterwards is read off the tree. -/
  env : p'.env = n.branchAfter p.env
  /-- The tree is scoped. -/
  tree : n.Scoped p.env
  /-- Its declarations have slots. -/
  named : n.Named p'.gen.namedValues

/-- **What parsing a list of statements says about the scope they are added
to**, which began with `env` visible. -/
structure ParsedIn (env : INode.Env) (p : Parser) (s : OpenScope) (rest : List OpenScope) : Prop where
  /-- The scope is the innermost one. -/
  scopes : p.scopes = s :: rest
  /-- Its tree is scoped. -/
  tree : s.node.Scoped env
  /-- What is visible is read off the tree. -/
  after : s.node.scopeAfter env = p.env
  /-- Its declarations have slots. -/
  named : s.node.Named p.gen.namedValues

/-- A newly opened scope. -/
theorem ParsedIn.push {p : Parser} (h : p.Ok) :
    ParsedIn p.env p.push ⟨p.nextScope, .emptyScope⟩ p.scopes :=
  ⟨rfl, trivial, h.push.2.symm, trivial⟩

/-- Adding a branch that was parsed in the scope. -/
theorem ParsedIn.addBranch {env : INode.Env} {p p' : Parser} {s : OpenScope}
    {rest : List OpenScope} {n : INode} (h : ParsedIn env p s rest) (hn : Parsed p n p') :
    Parser.Steps p (p'.addBranch n)
      ∧ ParsedIn env (p'.addBranch n) ⟨s.id, .addBranch s.node n⟩ rest := by
  have hscopes := hn.scopes.trans h.scopes
  obtain ⟨hsteps, henv⟩ := hn.steps.ok.addBranch n
  refine ⟨hn.steps.trans hsteps, ?_, ⟨h.tree, ?_⟩, ?_, ?_, ?_⟩
  · simp only [Parser.addBranch, hscopes]
  · rw [h.after]
    exact hn.tree
  · rw [henv, hn.env]
    show n.branchAfter (s.node.scopeAfter env) = _
    rw [h.after]
  · exact (h.named.mono hn.steps.named).mono hsteps.named
  · exact hn.named.mono hsteps.named

/-- **The body of an `if` or a `while`**, parsed in a scope of its own. -/
theorem Parsed.head {p p' : Parser} {n : INode} {c : LExpr} {cond : INode} (hp : p.Ok)
    (hc : c.parse p = .ok cond) (h : Parsed p.push n p')
    (mk : INode → INode → INode) (hmk : mk = .ifNode ∨ mk = .whileNode) :
    Parsed p (mk cond (p'.addBranch n).currentScope) (p'.addBranch n).resetScope := by
  obtain ⟨hsteps, hin⟩ := (ParsedIn.push hp).addBranch h
  obtain ⟨hclose, hscopes, henv⟩ := hp.close hsteps
  have hcur : (p'.addBranch n).currentScope = .addBranch .emptyScope n := by
    unfold Parser.currentScope
    rw [hin.scopes]
  obtain ⟨hcond, hreads⟩ := LExpr.parse_spec hc
  have hnamed : cond.Named (p'.addBranch n).gen.namedValues :=
    (hreads.named (fun x id hx => hp.env_named hx)).mono hclose.named
  rw [hcur]
  rcases hmk with rfl | rfl
  · exact ⟨hclose, hscopes, henv, ⟨hcond, hreads, hin.tree⟩, hnamed, hin.named⟩
  · exact ⟨hclose, hscopes, henv, ⟨hcond, hreads, hin.tree⟩, hnamed, hin.named⟩

mutual

/-- The actions of a statement. -/
theorem Stm.parse_spec : ∀ (s : Stm) {p p' : Parser} {n : INode}, p.Ok →
    s.parse p = .ok (n, p') → Parsed p n p'
  | .assign x e, p, p', n, hp, h => by
    obtain ⟨id, q, hacc, hres, hsteps, hscopes, henv⟩ := hp.access x
    unfold Stm.parse at h
    rw [hacc] at h
    obtain ⟨r, hr, h⟩ := bind_eq_ok.mp h
    cases h
    obtain ⟨hexpr, hreads⟩ := Expr.parse_spec hr
    have hnamed : ∀ y i, p'.env y = some i → (p'.gen.namedValues y).isSome := fun y i hy =>
      hsteps.ok.env_named hy
    refine ⟨hsteps, hscopes, henv, Or.inr ⟨rfl, id, x, rfl, hres, hexpr, henv ▸ hreads⟩, ?_,
      hreads.named hnamed⟩
    exact hnamed x id (by rw [henv, Function.update_self])
  | .output e, p, p', n, hp, h => by
    unfold Stm.parse at h
    obtain ⟨r, hr, h⟩ := bind_eq_ok.mp h
    cases h
    obtain ⟨hexpr, hreads⟩ := Expr.parse_spec hr
    exact ⟨Parser.Steps.refl hp, rfl, rfl, Or.inl ⟨rfl, rfl, hexpr, hreads⟩, trivial,
      hreads.named (fun x id hx => hp.env_named hx)⟩
  | .ifStm c body, p, p', n, hp, h => by
    unfold Stm.parse at h
    obtain ⟨cond, hc, h⟩ := bind_eq_ok.mp h
    obtain ⟨⟨node, q⟩, hbody, h⟩ := bind_eq_ok.mp h
    cases h
    exact (Body.parse_spec body hp.push.1 hbody).head hp hc .ifNode (Or.inl rfl)
  | .whileStm c body, p, p', n, hp, h => by
    unfold Stm.parse at h
    obtain ⟨cond, hc, h⟩ := bind_eq_ok.mp h
    obtain ⟨⟨node, q⟩, hbody, h⟩ := bind_eq_ok.mp h
    cases h
    exact (Body.parse_spec body hp.push.1 hbody).head hp hc .whileNode (Or.inr rfl)

/-- The actions of a statement or a block. -/
theorem Body.parse_spec : ∀ (b : Body) {p p' : Parser} {n : INode}, p.Ok →
    b.parse p = .ok (n, p') → Parsed p n p'
  | .stm s, p, p', n, hp, h => Stm.parse_spec s hp h
  | .scope ss, p, p', n, hp, h => by
    unfold Body.parse at h
    obtain ⟨q, hq, h⟩ := bind_eq_ok.mp h
    cases h
    obtain ⟨hsteps, s, b, hin⟩ := Stms.parse_spec ss hp.push.1 (ParsedIn.push hp) hq
    obtain ⟨hclose, hscopes, henv⟩ := hp.close hsteps
    have hcur : q.currentScope = .addBranch s b := by
      unfold Parser.currentScope
      rw [hin.scopes]
    rw [hcur]
    exact ⟨hclose, hscopes, henv, hin.tree, hin.named⟩

/-- The actions of a list of statements. -/
theorem Stms.parse_spec : ∀ (ss : Stms) {env : INode.Env} {p p' : Parser} {s : OpenScope}
    {rest : List OpenScope}, p.Ok → ParsedIn env p s rest → ss.parse p = .ok p' →
    Parser.Steps p p' ∧ ∃ l b, ParsedIn env p' ⟨s.id, .addBranch l b⟩ rest
  | .first st, env, p, p', s, rest, hp, hin, h => by
    unfold Stms.parse at h
    obtain ⟨⟨node, q⟩, hst, h⟩ := bind_eq_ok.mp h
    cases h
    obtain ⟨hsteps, hin'⟩ := hin.addBranch (Stm.parse_spec st hp hst)
    exact ⟨hsteps, _, _, hin'⟩
  | .next ss b, env, p, p', s, rest, hp, hin, h => by
    unfold Stms.parse at h
    obtain ⟨q, hq, h⟩ := bind_eq_ok.mp h
    obtain ⟨⟨node, r⟩, hb, h⟩ := bind_eq_ok.mp h
    cases h
    obtain ⟨hsteps, l, m, hin'⟩ := Stms.parse_spec ss hp hin hq
    obtain ⟨hsteps', hin''⟩ := hin'.addBranch (Body.parse_spec b hsteps.ok hb)
    exact ⟨hsteps.trans hsteps', _, _, hin''⟩

end

/-- **The tree of an accepted program** is scoped, beginning with nothing
visible; the generator is in order and has a slot for every declaration of
the tree. -/
theorem parseProgram_spec {ss : Stms} {root : INode} {g : CodeGen}
    (h : parseProgram ss = .ok (root, g)) :
    root.Scoped (fun _ => none) ∧ root.Named g.namedValues ∧ g.Declaring := by
  unfold parseProgram at h
  obtain ⟨p, hp, h⟩ := bind_eq_ok.mp h
  cases h
  have hin : ParsedIn (fun _ => none) Parser.start ⟨0, .emptyScope⟩ [] :=
    ⟨rfl, trivial, rfl, trivial⟩
  obtain ⟨hsteps, l, b, hroot⟩ := Stms.parse_spec ss Parser.ok_start hin hp
  have hcur : p.currentScope = .addBranch l b := by
    unfold Parser.currentScope
    rw [hroot.scopes]
  rw [hcur]
  exact ⟨hroot.tree, hroot.named, hsteps.ok.gen⟩

end ParaCL
