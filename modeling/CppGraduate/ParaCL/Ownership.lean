import CppGraduate.ParaCL.Release

/-!
# Every object has one owner

While a program is read, every object made so far belongs to an open scope,
to a symbol table, or to the node that the phrase read last has built: this
equation between multisets is what each action keeps. At the end everything
belongs to the root, so that its release deletes every object once.
-/

namespace ParaCL

open PNode

namespace Heap

/-! ## What has been made -/

/-- All objects made so far. -/
def made (h : Heap) : Multiset Obj :=
  (Multiset.range h.nextNode).map .node + (Multiset.range h.nextScope).map .scope
    + (Multiset.range h.nextDecl).map .decl

/-- No object is made twice. -/
theorem made_nodup (h : Heap) : h.made.Nodup := by
  have hmap : ∀ {f : ℕ → Obj} (n : ℕ), Function.Injective f → ((Multiset.range n).map f).Nodup :=
    fun n hf => (Multiset.nodup_range n).map hf
  unfold made
  rw [Multiset.nodup_add, Multiset.nodup_add]
  refine ⟨⟨hmap _ fun _ _ => Obj.node.inj, hmap _ fun _ _ => Obj.scope.inj, ?_⟩,
    hmap _ fun _ _ => Obj.decl.inj, ?_⟩
  · simp [Multiset.disjoint_left]
  · simp only [Multiset.disjoint_left, Multiset.mem_add, Multiset.mem_map]
    rintro _ (⟨_, _, rfl⟩ | ⟨_, _, rfl⟩) ⟨_, _, h⟩ <;> cases h

/-- **The objects that are live** when the program has been read: nothing
has been deleted. -/
def store (h : Heap) : Store := ⟨⟨h.made, h.made_nodup⟩, h.table, []⟩

/-- What belongs to open scopes, without declarations. -/
def openObjects : List PScope → Multiset Obj
  | [] => 0
  | s :: rest => ownedAll (fun _ => ∅) s.branches + {.scope s.id} + openObjects rest

theorem openObjects_cons (s : PScope) (rest : List PScope) :
    openObjects (s :: rest)
      = ownedAll (fun _ => ∅) s.branches + {.scope s.id} + openObjects rest :=
  rfl

/-- What belongs to symbol tables. -/
def declared (h : Heap) : Multiset Obj := (Multiset.range h.nextScope).bind (declsOf h.table)

/-- In the branches of open scopes every declaration named is one of a scope
around. -/
def ScopesWithin (table : ℕ → Symbols) : List PScope → Prop
  | [] => True
  | s :: rest => WithinAll table (s.id :: rest.map PScope.id) s.branches ∧ ScopesWithin table rest

/-- **The invariant of ownership**, with what is owned by no scope yet. -/
structure Ok (h : Heap) (F : Multiset Obj) : Prop where
  /-- A scope is open. -/
  ne : h.scopes ≠ []
  /-- Open scopes were made before. -/
  open_lt : ∀ s ∈ h.scopes, s.id < h.nextScope
  /-- Scopes that were not made have no declarations. -/
  fresh : ∀ i, h.nextScope ≤ i → h.table i = ∅
  /-- Declarations named are declarations of scopes around. -/
  within : ScopesWithin h.table h.scopes
  /-- Every object has one owner. -/
  owns : h.made = openObjects h.scopes + h.declared + F

end Heap

/-! ## Branches -/

/-- One branch more. -/
theorem PNode.ownedAll_append (table : ℕ → Symbols) (bs : List PNode) (b : PNode) :
    ownedAll table (bs ++ [b]) = ownedAll table bs + b.owned table := by
  induction bs with
  | nil => simp [ownedAll]
  | cons c bs ih => rw [List.cons_append, ownedAll, ih, ownedAll, add_assoc]

/-- One branch more. -/
theorem PNode.WithinAll.append {table : ℕ → Symbols} {around : List ℕ} {bs : List PNode}
    {b : PNode} (h : WithinAll table around bs) (hb : b.Within table around)
    (hd : b.isDecl = false) : WithinAll table around (bs ++ [b]) := by
  induction bs with
  | nil => exact ⟨hb, hd, trivial⟩
  | cons c bs ih => exact ⟨h.1, h.2.1, ih h.2.2⟩

section Mono

variable {table table' : ℕ → Symbols}

mutual

/-- More declarations. -/
theorem PNode.Within.mono (h : ∀ i, (table i).decls ⊆ (table' i).decls) :
    ∀ {n : PNode} {around : List ℕ}, n.Within table around → n.Within table' around
  | .null, _, _ | .value _ _, _, _ => trivial
  | .decl _ _, _, ⟨i, hi, hid⟩ => ⟨i, hi, h i hid⟩
  | .scope _ bs, _, hn =>
    have hbs : WithinAll table _ bs := hn
    PNode.WithinAll.mono h hbs
  | .operand _ _ _ _, _, hn => ⟨PNode.Within.mono h hn.1, PNode.Within.mono h hn.2⟩
  | .whileNode _ _ _, _, hn | .ifNode _ _ _, _, hn =>
    ⟨PNode.Within.mono h hn.1, PNode.Within.mono h hn.2.1, hn.2.2⟩

/-- More declarations. -/
theorem PNode.WithinAll.mono (h : ∀ i, (table i).decls ⊆ (table' i).decls) :
    ∀ {bs : List PNode} {around : List ℕ}, WithinAll table around bs → WithinAll table' around bs
  | [], _, _ => trivial
  | _ :: _, _, hn => ⟨PNode.Within.mono h hn.1, hn.2.1, PNode.WithinAll.mono h hn.2.2⟩

end

/-- More declarations. -/
theorem Heap.ScopesWithin.mono (h : ∀ i, (table i).decls ⊆ (table' i).decls) {l : List PScope}
    (hl : ScopesWithin table l) : ScopesWithin table' l := by
  induction l with
  | nil => trivial
  | cons s rest ih => exact ⟨hl.1.mono h, ih hl.2⟩

end Mono

namespace Heap

variable {h h' : Heap} {F : Multiset Obj} {n : PNode}

/-- The scopes around, innermost first. -/
def around (h : Heap) : List ℕ := h.scopes.map PScope.id

/-! ## What the actions keep -/

/-- At the beginning. -/
theorem ok_start : start.Ok 0 where
  ne := List.cons_ne_nil _ _
  open_lt s hs := by
    rw [List.mem_singleton.mp hs]
    exact Nat.one_pos
  fresh _ _ := rfl
  within := ⟨trivial, trivial⟩
  owns := by decide

/-- `new` makes an object that belongs to no scope yet. -/
theorem Ok.new (ho : h.Ok F) (mk : ℕ → PNode) : (h.new mk).2.Ok (F + {.node h.nextNode}) where
  ne := ho.ne
  open_lt := ho.open_lt
  fresh := ho.fresh
  within := ho.within
  owns := by
    have hmade : (h.new mk).2.made = h.made + {.node h.nextNode} := by
      unfold made Heap.new
      rw [Multiset.range_succ, Multiset.map_cons, ← Multiset.singleton_add]
      abel
    rw [hmade, ho.owns, add_assoc]
    rfl

/-- Opening a scope. -/
theorem Ok.push (ho : h.Ok F) : h.push.Ok F where
  ne := List.cons_ne_nil _ _
  open_lt s hs := by
    rcases List.mem_cons.mp hs with rfl | hs
    · exact Nat.lt_succ_self _
    · exact Nat.lt_succ_of_lt (ho.open_lt s hs)
  fresh i hi := ho.fresh i ((Nat.le_succ _).trans hi)
  within := ⟨trivial, ho.within⟩
  owns := by
    have hmade : h.push.made = h.made + {.scope h.nextScope} := by
      unfold made Heap.push
      rw [Multiset.range_succ, Multiset.map_cons, ← Multiset.singleton_add]
      abel
    have hdecl : h.push.declared = h.declared := by
      unfold declared Heap.push
      rw [Multiset.range_succ, Multiset.cons_bind]
      have hnone : declsOf h.table h.nextScope = 0 := by
        unfold declsOf
        rw [ho.fresh _ le_rfl]
        rfl
      rw [hnone, zero_add]
    rw [hmade, hdecl, ho.owns]
    show _ = ownedAll _ [] + {.scope h.nextScope} + openObjects h.scopes + h.declared + F
    unfold ownedAll
    abel

/-- Adding a branch to the innermost scope. -/
theorem Ok.addBranch (ho : h.Ok (F + n.objects)) (hw : n.Within h.table h.around)
    (hd : n.isDecl = false) : (h.addBranch n).Ok F := by
  unfold Heap.addBranch
  cases hs : h.scopes with
  | nil => exact absurd hs ho.ne
  | cons s rest =>
    have hwithin := ho.within
    have howns := ho.owns
    unfold around at hw
    rw [hs] at hwithin howns hw
    refine ⟨List.cons_ne_nil _ _, fun t ht => ?_, ho.fresh,
      ⟨hwithin.1.append hw hd, hwithin.2⟩, ?_⟩
    · rcases List.mem_cons.mp ht with rfl | ht
      · exact ho.open_lt s (hs ▸ List.mem_cons_self)
      · exact ho.open_lt t (hs ▸ List.mem_cons_of_mem s ht)
    · show h.made = ownedAll _ (s.branches ++ [n]) + {.scope s.id} + openObjects rest
        + h.declared + F
      rw [howns, ownedAll_append, openObjects_cons]
      unfold objects
      abel

/-- **Closing a scope**: what belonged to it belongs to the node. -/
theorem Ok.close {s t : PScope} {rest : List PScope} (ho : h.Ok F)
    (hs : h.scopes = s :: t :: rest) :
    h.resetScope.Ok (F + (PNode.scope s.id s.branches).objects)
      ∧ (PNode.scope s.id s.branches).Within h.table h.resetScope.around := by
  have hwithin := ho.within
  have howns := ho.owns
  have hscopes : h.resetScope.scopes = t :: rest := congrArg List.tail hs
  rw [hs] at hwithin howns
  refine ⟨⟨?_, fun u hu => ?_, ho.fresh, ?_, ?_⟩, ?_⟩
  · rw [hscopes]
    exact List.cons_ne_nil _ _
  · rw [hscopes] at hu
    exact ho.open_lt u (hs ▸ List.mem_cons_of_mem s hu)
  · rw [hscopes]
    exact hwithin.2
  · rw [hscopes]
    show h.made = _ + h.declared + _
    rw [howns]
    have hobj : (PNode.scope s.id s.branches).objects
        = ownedAll (fun _ => ∅) s.branches + 0 + {.scope s.id} := rfl
    rw [hobj]
    rw [openObjects_cons]
    abel
  · unfold around
    rw [hscopes]
    exact hwithin.1

/-- A visible name stands for a declaration of a scope around. -/
theorem within_of_visibleIn {table : ℕ → Symbols} {x : String} {id : ℕ} {l : List PScope}
    (hv : visibleIn table x l = some id) :
    ∃ i ∈ l.map PScope.id, id ∈ (table i).decls := by
  induction l with
  | nil => cases hv
  | cons s rest ih =>
    unfold visibleIn at hv
    split at hv
    · next hs =>
      cases hv
      exact ⟨s.id, List.mem_cons_self,
        List.mem_map_of_mem (f := Sigma.snd) (AList.mem_lookup_iff.mp hs)⟩
    · obtain ⟨i, hi, hid⟩ := ih hv
      exact ⟨i, List.mem_cons_of_mem _ hi, hid⟩

/-- **What reading a phrase says about its node**: it is what was made, but
for declarations, and it names declarations of scopes around. -/
structure Built (F : Multiset Obj) (h : Heap) (n : PNode) (h' : Heap) : Prop where
  /-- The same scopes are open, with the same branches. -/
  scopes : h'.scopes = h.scopes
  /-- No declaration is lost. -/
  grows : ∀ i, (h.table i).decls ⊆ (h'.table i).decls
  /-- What was made belongs to the node. -/
  ok : h'.Ok (F + n.objects)
  /-- Declarations named are declarations of scopes around. -/
  within : n.Within h'.table h.around

/-- What is visible after a phrase is around what was visible before. -/
theorem Built.around {h h' : Heap} (hb : Built F h n h') : h'.around = h.around :=
  congrArg (List.map PScope.id) hb.scopes

/-- A declaration that is named. -/
theorem Ok.named {id : ℕ} {x : String} (ho : h.Ok F)
    (hv : visibleIn h.table x h.scopes = some id) : Built F h (.decl id x) h :=
  ⟨rfl, fun _ => List.Subset.refl _, (add_zero F).symm ▸ ho, within_of_visibleIn hv⟩

/-- The declarations of a scope with a name more. -/
theorem decls_insert {t : Symbols} {x : String} (hx : t.lookup x = none) (id : ℕ) :
    Symbols.decls (t.insert x id) = id :: t.decls := by
  unfold Symbols.decls
  rw [AList.entries_insert_of_notMem (AList.lookup_eq_none.mp hx)]
  rfl

/-- A declaration is made for a name that has none in the scope. -/
theorem bind_declsOf_insert {table : ℕ → Symbols} {i k n : ℕ} {x : String} (hi : i < n)
    (hx : (table i).lookup x = none) :
    (Multiset.range n).bind
        (declsOf (Function.update table i ((table i).insert x k)))
      = (Multiset.range n).bind (declsOf table) + {.decl k} := by
  obtain ⟨t, ht⟩ := Multiset.exists_cons_of_mem (Multiset.mem_range.mpr hi)
  have hnot : i ∉ t := (Multiset.nodup_cons.mp (ht ▸ Multiset.nodup_range n)).1
  have hself : declsOf (Function.update table i ((table i).insert x k)) i
      = declsOf table i + {.decl k} := by
    unfold declsOf
    rw [Function.update_self, decls_insert hx, List.map_cons, ← Multiset.cons_coe,
      ← Multiset.singleton_add, add_comm]
  have hrest : t.bind (declsOf (Function.update table i ((table i).insert x k)))
      = t.bind (declsOf table) := by
    refine Multiset.bind_congr fun j hj => ?_
    unfold declsOf
    rw [Function.update_of_ne (ne_of_mem_of_not_mem hj hnot)]
  rw [ht, Multiset.cons_bind, Multiset.cons_bind, hself, hrest]
  abel

/-- A name is written into the innermost scope. -/
theorem addSymbol_eq {s : PScope} {rest : List PScope} (hs : h.scopes = s :: rest) (x : String)
    (id : ℕ) :
    h.addSymbol x id
      = { h with table := Function.update h.table s.id ((h.table s.id).insert x id) } := by
  unfold addSymbol
  rw [hs]

/-- **The left-hand side of an assignment**: a declaration around, or a new
one, which belongs to the table of the innermost scope. -/
theorem Ok.access (ho : h.Ok F) (x : String) : Built F h (h.access x).1 (h.access x).2 := by
  unfold Heap.access Heap.visible
  cases hv : visibleIn h.table x h.scopes with
  | some id => exact ho.named hv
  | none =>
    obtain ⟨s, rest, hs⟩ := List.exists_cons_of_ne_nil ho.ne
    have hnone : (h.table s.id).lookup x = none := by
      rw [hs, visibleIn] at hv
      split at hv
      · cases hv
      · next hx => exact hx
    have hlt : s.id < h.nextScope := ho.open_lt s (hs ▸ List.mem_cons_self)
    have hgrows : ∀ i, (h.table i).decls ⊆ (Function.update h.table s.id
        ((h.table s.id).insert x h.nextDecl) i).decls := by
      intro i id hid
      rw [Function.update_apply]
      split_ifs with hi
      · subst hi
        rw [decls_insert hnone]
        exact List.mem_cons_of_mem _ hid
      · exact hid
    rw [addSymbol_eq hs]
    refine ⟨rfl, hgrows, ⟨ho.ne, ho.open_lt, fun i hi => ?_, ho.within.mono hgrows, ?_⟩, ?_⟩
    · have hne : i ≠ s.id := (hlt.trans_le hi).ne'
      exact (Function.update_of_ne hne _ _).trans (ho.fresh i hi)
    · show (Multiset.range h.nextNode).map .node + (Multiset.range h.nextScope).map .scope
          + (Multiset.range (h.nextDecl + 1)).map .decl
        = openObjects h.scopes + (Multiset.range h.nextScope).bind (declsOf (Function.update h.table
            s.id ((h.table s.id).insert x h.nextDecl))) + (F + 0)
      rw [bind_declsOf_insert hlt hnone, Multiset.range_succ, Multiset.map_cons,
        ← Multiset.singleton_add, add_left_comm]
      change _ + h.made = _
      rw [ho.owns]
      unfold declared
      abel
    · refine ⟨s.id, ?_, ?_⟩
      · unfold Heap.around
        rw [hs]
        exact List.mem_cons_self
      · show h.nextDecl ∈ (Function.update h.table s.id _ s.id).decls
        rw [Function.update_self, decls_insert hnone]
        exact List.mem_cons_self

/-- A node without operands. -/
theorem Ok.leaf (ho : h.Ok F) (mk : ℕ → PNode) (hobj : ∀ id, (mk id).objects = {.node id})
    (hw : ∀ id, (mk id).Within h.table h.around) :
    Built F h (h.new mk).1 (h.new mk).2 where
  scopes := rfl
  grows _ := List.Subset.refl _
  ok := by
    rw [show (h.new mk).1.objects = {.node h.nextNode} from hobj _]
    exact ho.new mk
  within := hw _

/-- **An operation on two operands**, whatever was read first. -/
theorem Built.operand {h₂ : Heap} {l r : PNode} (hs : h₂.scopes = h.scopes)
    (hg : ∀ i, (h.table i).decls ⊆ (h₂.table i).decls) (ho : h₂.Ok (F + l.objects + r.objects))
    (hl : l.Within h₂.table h.around) (hr : r.Within h₂.table h.around) (op : Operation) :
    Built F h (h₂.makeOperand l op r).1 (h₂.makeOperand l op r).2 where
  scopes := hs
  grows := hg
  ok := by
    have hobj : (h₂.makeOperand l op r).1.objects
        = l.objects + r.objects + {.node h₂.nextNode} := rfl
    rw [hobj, ← add_assoc, ← add_assoc]
    exact ho.new _
  within := ⟨hl, hr⟩

/-- One phrase after another. -/
theorem Built.then_grows {h₁ h₂ : Heap} {l r : PNode} (hl : Built F h l h₁)
    (hr : Built (F + l.objects) h₁ r h₂) (i : ℕ) : (h.table i).decls ⊆ (h₂.table i).decls :=
  List.Subset.trans (hl.grows i) (hr.grows i)

/-- The operands from left to right. -/
theorem Built.binary {h₁ h₂ : Heap} {l r : PNode} (hl : Built F h l h₁)
    (hr : Built (F + l.objects) h₁ r h₂) (op : Operation) :
    Built F h (h₂.makeOperand l op r).1 (h₂.makeOperand l op r).2 :=
  .operand (hr.scopes.trans hl.scopes) (hl.then_grows hr) hr.ok (hl.within.mono hr.grows)
    (hl.around ▸ hr.within) op

/-- Only one operand. -/
theorem Built.unary {h₁ : Heap} {r : PNode} (hr : Built F h r h₁) (op : Operation) :
    Built F h (h₁.makeOperand .null op r).1 (h₁.makeOperand .null op r).2 :=
  .operand (l := .null) hr.scopes hr.grows ((add_zero F).symm ▸ hr.ok) trivial hr.within op

/-- **A statement becomes a branch** of the innermost scope. -/
theorem Built.addBranch {s : PScope} {rest : List PScope} (hn : Built F h n h')
    (hd : n.isDecl = false) (hs : h.scopes = s :: rest) :
    (h'.addBranch n).scopes = ⟨s.id, s.branches ++ [n]⟩ :: rest
      ∧ (∀ i, (h.table i).decls ⊆ ((h'.addBranch n).table i).decls) ∧ (h'.addBranch n).Ok F := by
  refine ⟨?_, ?_, hn.ok.addBranch (hn.around ▸ hn.within) hd⟩
  · unfold Heap.addBranch
    rw [hn.scopes, hs]
  · unfold Heap.addBranch
    split <;> exact hn.grows

/-- **The body of an `if` or a `while`**, read in a scope of its own: the
scope belongs to the statement, after what belongs to the condition. -/
theorem Built.head {h₁ h₂ : Heap} {c b : PNode} (hc : Built F h c h₁)
    (hb : Built (F + c.objects) h₁.push b h₂) (hd : b.isDecl = false)
    (mk : ℕ → PNode → PNode → PNode) (hmk : mk = .ifNode ∨ mk = .whileNode) :
    Built F h (mk (h₂.addBranch b).nextNode c (h₂.addBranch b).currentScope)
      ((h₂.addBranch b).new fun id => mk id c (h₂.addBranch b).currentScope).2.resetScope := by
  obtain ⟨hscopes, hgrows, hadd⟩ := hb.addBranch hd (s := ⟨h₁.nextScope, []⟩) rfl
  rw [List.nil_append] at hscopes
  obtain ⟨t, rest, ht⟩ := List.exists_cons_of_ne_nil hc.ok.ne
  have hcur : (h₂.addBranch b).currentScope = .scope h₁.nextScope [b] := by
    unfold currentScope
    rw [hscopes]
  rw [ht] at hscopes
  obtain ⟨hok, hwithin⟩ := (hadd.new fun id => mk id c (h₂.addBranch b).currentScope).close hscopes
  have haround : ((h₂.addBranch b).new fun id => mk id c
      (h₂.addBranch b).currentScope).2.resetScope.around = h.around := by
    unfold Heap.around
    show List.map PScope.id (h₂.addBranch b).scopes.tail = _
    rw [hscopes, ← hc.scopes, ht]
    rfl
  have hobj : (mk (h₂.addBranch b).nextNode c (h₂.addBranch b).currentScope).objects
      = c.objects + (PNode.scope h₁.nextScope [b]).objects + {.node (h₂.addBranch b).nextNode} := by
    rw [hcur]
    rcases hmk with rfl | rfl <;> rfl
  refine ⟨?_, fun i => List.Subset.trans (hc.grows i) (hgrows i), ?_, ?_⟩
  · show (h₂.addBranch b).scopes.tail = h.scopes
    rw [hscopes, ← hc.scopes, ht]
    rfl
  · rw [hobj]
    have hF : F + (c.objects + (PNode.scope h₁.nextScope [b]).objects
          + {.node (h₂.addBranch b).nextNode})
        = F + c.objects + {.node (h₂.addBranch b).nextNode}
          + (PNode.scope h₁.nextScope [b]).objects := by
      abel
    rw [hF]
    exact hok
  · rw [haround] at hwithin
    rw [hcur]
    have hcw := hc.within.mono hgrows
    rcases hmk with rfl | rfl
    · exact ⟨hcw, hwithin, rfl⟩
    · exact ⟨hcw, hwithin, rfl⟩

end Heap

/-! ## The phrases -/

section Phrases

variable {h h' : Heap} {F : Multiset Obj} {n : PNode}

open ParaCL.Heap

/-- An operation on two operands. -/
theorem built_binary {l r : Heap → Except String (PNode × Heap)} {op : Operation}
    (hl : ∀ {F h h' n}, Heap.Ok h F → l h = .ok (n, h') → Built F h n h')
    (hr : ∀ {F h h' n}, Heap.Ok h F → r h = .ok (n, h') → Built F h n h') (ho : h.Ok F)
    (hb : h.binary l r op = .ok (n, h')) : Built F h n h' := by
  obtain ⟨⟨a, h₁⟩, ha, hb⟩ := bind_eq_ok.mp hb
  obtain ⟨⟨b, h₂⟩, hb', hb⟩ := bind_eq_ok.mp hb
  cases hb
  have hleft := hl ho ha
  exact hleft.binary (hr hleft.ok hb') op

/-- **Expressions.** -/
theorem Expr.build_spec (e : Expr) (ho : h.Ok F) (hb : e.build h = .ok (n, h')) :
    Built F h n h' := by
  induction e generalizing h h' F n with
  | plus l r ihl ihr | minus l r ihl ihr | mul l r ihl ihr | div l r ihl ihr
  | mod l r ihl ihr => exact built_binary ihl ihr ho hb
  | uminus e ih =>
    obtain ⟨⟨a, h₁⟩, ha, hb⟩ := bind_eq_ok.mp hb
    cases hb
    have hrhs := ih ho ha
    have hzero : Built (F + a.objects) h₁ (h₁.makeValue 0).1 (h₁.makeValue 0).2 :=
      hrhs.ok.leaf (fun id => .value id 0) (fun _ => rfl) fun _ => trivial
    refine .operand (l := (h₁.makeValue 0).1) (hzero.scopes.trans hrhs.scopes)
      (hrhs.then_grows hzero) ?_ trivial hrhs.within .minus
    rw [add_right_comm]
    exact hzero.ok
  | name x =>
    unfold Expr.build visible at hb
    cases hv : visibleIn h.table x h.scopes with
    | some id =>
      rw [hv] at hb
      cases hb
      exact ho.named hv
    | none =>
      rw [hv] at hb
      cases hb
  | value v =>
    cases hb
    exact ho.leaf (fun id => .value id v) (fun _ => rfl) fun _ => trivial
  | input =>
    cases hb
    exact ho.leaf (fun id => .operand id .null .stdIn .null) (fun _ => rfl)
      fun _ => ⟨trivial, trivial⟩

/-- **Conditions.** -/
theorem LExpr.build_spec (e : LExpr) (ho : h.Ok F) (hb : e.build h = .ok (n, h')) :
    Built F h n h' := by
  induction e generalizing h h' F n with
  | expr e => exact e.build_spec ho hb
  | rel l op r => exact built_binary l.build_spec r.build_spec ho hb
  | or l r ihl ihr | and l r ihl ihr => exact built_binary ihl ihr ho hb
  | not e ih =>
    obtain ⟨⟨a, h₁⟩, ha, hb⟩ := bind_eq_ok.mp hb
    cases hb
    exact (ih ho ha).unary .not

mutual

/-- **Statements.** -/
theorem Stm.build_spec : ∀ (s : Stm) {F : Multiset Obj} {h h' : Heap} {n : PNode}, h.Ok F →
    s.build h = .ok (n, h') → Built F h n h' ∧ n.isDecl = false
  | .assign x e, F, h, h', n, ho, hb => by
    unfold Stm.build at hb
    obtain ⟨⟨a, h₁⟩, ha, hb⟩ := bind_eq_ok.mp hb
    cases hb
    have hlval := ho.access x
    exact ⟨hlval.binary (e.build_spec hlval.ok ha) .assign, rfl⟩
  | .output e, F, h, h', n, ho, hb => by
    unfold Stm.build at hb
    obtain ⟨⟨a, h₁⟩, ha, hb⟩ := bind_eq_ok.mp hb
    cases hb
    exact ⟨(e.build_spec ho ha).unary .stdOut, rfl⟩
  | .ifStm c body, F, h, h', n, ho, hb => by
    unfold Stm.build at hb
    obtain ⟨⟨cond, h₁⟩, hc, hb⟩ := bind_eq_ok.mp hb
    obtain ⟨⟨node, h₂⟩, hbody, hb⟩ := bind_eq_ok.mp hb
    cases hb
    have hcond := c.build_spec ho hc
    obtain ⟨hnode, hd⟩ := Body.build_spec body hcond.ok.push hbody
    exact ⟨hcond.head hnode hd .ifNode (Or.inl rfl), rfl⟩
  | .whileStm c body, F, h, h', n, ho, hb => by
    unfold Stm.build at hb
    obtain ⟨⟨cond, h₁⟩, hc, hb⟩ := bind_eq_ok.mp hb
    obtain ⟨⟨node, h₂⟩, hbody, hb⟩ := bind_eq_ok.mp hb
    cases hb
    have hcond := c.build_spec ho hc
    obtain ⟨hnode, hd⟩ := Body.build_spec body hcond.ok.push hbody
    exact ⟨hcond.head hnode hd .whileNode (Or.inr rfl), rfl⟩

/-- **Statements and blocks.** -/
theorem Body.build_spec : ∀ (b : Body) {F : Multiset Obj} {h h' : Heap} {n : PNode}, h.Ok F →
    b.build h = .ok (n, h') → Built F h n h' ∧ n.isDecl = false
  | .stm s, F, h, h', n, ho, hb => Stm.build_spec s ho hb
  | .scope ss, F, h, h', n, ho, hb => by
    unfold Body.build at hb
    obtain ⟨h₁, hss, hb⟩ := bind_eq_ok.mp hb
    cases hb
    obtain ⟨branches, hscopes, hgrows, hok⟩ := Stms.build_spec ss (s := ⟨h.nextScope, []⟩) rfl
      ho.push hss
    obtain ⟨t, rest, ht⟩ := List.exists_cons_of_ne_nil ho.ne
    rw [ht] at hscopes
    obtain ⟨hclose, hwithin⟩ := hok.close hscopes
    have hreset : h₁.resetScope.scopes = h.scopes := by
      show h₁.scopes.tail = h.scopes
      rw [hscopes, ht]
      rfl
    have hcur : h₁.currentScope = .scope h.nextScope branches := by
      unfold currentScope
      rw [hscopes]
    rw [hcur]
    refine ⟨⟨hreset, hgrows, hclose, ?_⟩, rfl⟩
    unfold around at hwithin ⊢
    rwa [hreset] at hwithin

/-- **Lists of statements**: their nodes are branches of the innermost
scope. -/
theorem Stms.build_spec : ∀ (ss : Stms) {F : Multiset Obj} {h h' : Heap} {s : PScope}
    {rest : List PScope}, h.scopes = s :: rest → h.Ok F → ss.build h = .ok h' →
    ∃ branches, h'.scopes = ⟨s.id, branches⟩ :: rest
      ∧ (∀ i, (h.table i).decls ⊆ (h'.table i).decls) ∧ h'.Ok F
  | .first st, F, h, h', s, rest, hs, ho, hb => by
    unfold Stms.build at hb
    obtain ⟨⟨node, h₁⟩, hst, hb⟩ := bind_eq_ok.mp hb
    cases hb
    obtain ⟨hnode, hd⟩ := Stm.build_spec st ho hst
    exact ⟨_, hnode.addBranch hd hs⟩
  | .next ss b, F, h, h', s, rest, hs, ho, hb => by
    unfold Stms.build at hb
    obtain ⟨h₁, hss, hb⟩ := bind_eq_ok.mp hb
    obtain ⟨⟨node, h₂⟩, hbody, hb⟩ := bind_eq_ok.mp hb
    cases hb
    obtain ⟨branches, hscopes, hgrows, hok⟩ := Stms.build_spec ss hs ho hss
    obtain ⟨hnode, hd⟩ := Body.build_spec b hok hbody
    obtain ⟨hscopes', hgrows', hok'⟩ := hnode.addBranch hd hscopes
    exact ⟨_, hscopes', fun i => List.Subset.trans (hgrows i) (hgrows' i), hok'⟩

end

end Phrases

/-! ## The root -/

namespace PNode

/-- What belongs to the symbol table of an object. -/
def symbolsOf (table : ℕ → Symbols) : Obj → Multiset Obj
  | .scope i => declsOf table i
  | _ => 0

mutual

/-- **What belongs to a node** is its objects, and the declarations in the
tables of its scopes. -/
theorem owned_eq (table : ℕ → Symbols) : ∀ n : PNode,
    n.owned table = n.objects + n.objects.bind (symbolsOf table)
  | .null | .decl _ _ => by simp [owned, objects]
  | .value _ _ => by simp [owned, objects, symbolsOf]
  | .scope id bs => by
    have hobj : (PNode.scope id bs).objects = ownedAll (fun _ => ∅) bs + 0 + {.scope id} := rfl
    rw [hobj, owned, ownedAll_eq table bs, add_zero, Multiset.add_bind, Multiset.singleton_bind]
    show _ = _ + (_ + declsOf table id)
    abel
  | .operand id l op r => by
    have hobj : (PNode.operand id l op r).objects = l.objects + r.objects + {.node id} := rfl
    rw [hobj, owned, owned_eq table l, owned_eq table r, Multiset.add_bind, Multiset.add_bind,
      Multiset.singleton_bind]
    show _ = _ + (_ + 0)
    abel
  | .whileNode id op body | .ifNode id op body => by
    have hobj : (PNode.ifNode id op body).objects = op.objects + body.objects + {.node id} := rfl
    have hobj' : (PNode.whileNode id op body).objects = op.objects + body.objects + {.node id} :=
      rfl
    first | rw [hobj'] | rw [hobj]
    rw [owned, owned_eq table op, owned_eq table body, Multiset.add_bind, Multiset.add_bind,
      Multiset.singleton_bind]
    show _ = _ + (_ + 0)
    abel

/-- So is what belongs to the branches of a scope. -/
theorem ownedAll_eq (table : ℕ → Symbols) : ∀ bs : List PNode,
    ownedAll table bs
      = ownedAll (fun _ => ∅) bs + (ownedAll (fun _ => ∅) bs).bind (symbolsOf table)
  | [] => rfl
  | b :: bs => by
    rw [ownedAll, ownedAll, owned_eq table b, ownedAll_eq table bs, Multiset.add_bind]
    unfold objects
    abel

end

end PNode

namespace Heap

variable {h : Heap}

/-- The declarations of all scopes. -/
theorem made_bind (h : Heap) : h.made.bind (symbolsOf h.table) = h.declared := by
  unfold made declared
  rw [Multiset.add_bind, Multiset.add_bind, Multiset.bind_map, Multiset.bind_map,
    Multiset.bind_map]
  simp [symbolsOf]

/-- Declarations have no symbol table. -/
theorem declared_bind (h : Heap) : h.declared.bind (symbolsOf h.table) = 0 := by
  refine (Multiset.bind_congr fun o ho => ?_).trans (Multiset.bind_zero h.declared)
  obtain ⟨i, -, hi⟩ := Multiset.mem_bind.mp ho
  obtain ⟨id, -, rfl⟩ := List.mem_map.mp hi
  rfl

/-- **In the end everything belongs to the root.** -/
theorem Ok.owned_root {bs : List PNode} (ho : h.Ok 0) (hs : h.scopes = [⟨0, bs⟩]) :
    (PNode.scope 0 bs).owned h.table = h.made := by
  have hmade : h.made = (PNode.scope 0 bs).objects + h.declared := by
    have hobj : (PNode.scope 0 bs).objects = ownedAll (fun _ => ∅) bs + 0 + {.scope 0} := rfl
    rw [hobj, add_zero, ho.owns, hs]
    unfold openObjects openObjects
    abel
  have hdecl : (PNode.scope 0 bs).objects.bind (symbolsOf h.table) = h.declared := by
    rw [← h.made_bind, hmade, Multiset.add_bind, declared_bind, add_zero]
  rw [owned_eq, hdecl, ← hmade]

/-- A declaration is in one table only. -/
theorem Ok.table_unique {F : Multiset Obj} (ho : h.Ok F) {i j id : ℕ}
    (hi : id ∈ (h.table i).decls) (hj : id ∈ (h.table j).decls) : i = j := by
  have hlt : ∀ {k : ℕ}, id ∈ (h.table k).decls → k < h.nextScope := fun {k} hk => by
    by_contra hge
    rw [ho.fresh k (Nat.le_of_not_lt hge)] at hk
    cases hk
  by_contra hne
  obtain ⟨t, ht⟩ := Multiset.exists_cons_of_mem (Multiset.mem_range.mpr (hlt hi))
  have hmem : j ∈ t := by
    have hj' := Multiset.mem_range.mpr (hlt hj)
    rw [ht] at hj'
    exact (Multiset.mem_cons.mp hj').resolve_left (Ne.symm hne)
  have hnodup : h.declared.Nodup := by
    refine Multiset.nodup_of_le ?_ h.made_nodup
    rw [ho.owns]
    exact (Multiset.le_add_left _ _).trans (Multiset.le_add_right _ _)
  unfold declared at hnodup
  rw [ht, Multiset.cons_bind, Multiset.nodup_add] at hnodup
  refine Multiset.disjoint_left.mp hnodup.2.2 (List.mem_map_of_mem hi) ?_
  exact Multiset.mem_bind.mpr ⟨j, hmem, List.mem_map_of_mem hj⟩

end Heap

/-- **Everything is released once**: nothing is left, every object that was
made has been deleted once, a declaration by the symbol table of the scope
that declared it, and everything else by the node that points to it. -/
structure ReleasedOnce (h : Heap) (σ : Store) : Prop where
  /-- Nothing is left. -/
  empty : σ.live = ∅
  /-- What was made was deleted once, and nothing else was. -/
  once : ∀ o, (σ.log.map Prod.snd).count o = if o ∈ h.store.live then 1 else 0
  /-- Declarations are deleted by the only table they are in. -/
  decls : ∀ via id, (via, .decl id) ∈ σ.log →
    ∃ i, via = .table i ∧ ∀ j, id ∈ (h.table j).decls ↔ j = i
  /-- Everything else is deleted by the node that points to it. -/
  nodes : ∀ via o, (via, o) ∈ σ.log → (∀ id, o ≠ .decl id) → via = .node

/-- **The tree of an accepted program is released exactly once**: `delete`
of the root looks at live objects only and deletes each of them once,
whatever the order in which the tables yield their declarations. -/
theorem parseProgram_releasedOnce {ss : Stms} {tree : INode} {g : CodeGen}
    (hp : parseProgram ss = .ok (tree, g)) :
    ∃ root h, buildProgram ss = .ok (root, h) ∧ root.erase = tree ∧
      ∀ order : List ℕ → List ℕ, (∀ l, (order l).Perm l) →
        ∃ σ, root.delete order h.store = some σ ∧ ReleasedOnce h σ := by
  have hagree := buildProgram_agree ss
  rw [hp] at hagree
  cases hb : buildProgram ss with
  | error m =>
    rw [hb] at hagree
    exact hagree.elim
  | ok r =>
    obtain ⟨root, h⟩ := r
    rw [hb] at hagree
    refine ⟨root, h, rfl, Eq.symm hagree, fun order horder => ?_⟩
    obtain ⟨h', hss, hend⟩ := bind_eq_ok.mp hb
    cases hend
    obtain ⟨bs, hscopes, -, hok⟩ := Stms.build_spec ss (s := ⟨0, []⟩) rfl Heap.ok_start hss
    have hroot : h.currentScope = .scope 0 bs := by
      unfold Heap.currentScope
      rw [hscopes]
    have howned := hok.owned_root hscopes
    rw [hroot]
    have hwithin : (PNode.scope 0 bs).Within h.table [] := by
      have hw := hok.within
      rw [hscopes] at hw
      exact hw.1
    have hready : Ready h.table [] h.store ((PNode.scope 0 bs).owned h.table) := by
      refine ⟨?_, fun _ _ => rfl⟩
      rw [howned]
      exact (add_zero h.made).le
    obtain ⟨σ, hdel, hrem⟩ := delete_spec horder _ hwithin rfl hready
    refine ⟨σ, hdel, ?_⟩
    obtain ⟨l, hlog, hl, hproper⟩ := hrem.log
    rw [howned] at hl
    change σ.log = [] ++ l at hlog
    rw [List.nil_append] at hlog
    subst hlog
    refine ⟨?_, fun o => ?_, fun via id he => ?_, fun via o he hne => ?_⟩
    · have hlive := hrem.live
      rw [howned] at hlive
      exact Finset.val_eq_zero.mp (add_eq_right.mp hlive.symm)
    · rw [← Multiset.coe_count, hl]
      exact Multiset.count_eq_of_nodup h.made_nodup
    · have hp := hproper _ he
      match via, hp with
      | .table i, hp =>
        exact ⟨i, rfl, fun j => ⟨fun hj => hok.table_unique hj hp, fun hj => hj ▸ hp⟩⟩
    · have hp := hproper _ he
      match via, o, hp with
      | .node, _, _ => rfl
      | .table i, .decl id, _ => exact absurd rfl (hne id)

/-- `x = ?; if (x) { y = x; print y; }` is released once: two declarations,
three scopes and five other nodes. -/
theorem parseProgram_releasedOnce_nested :
    ∃ root h, buildProgram (.next (.first (.assign "x" .input))
        (.stm (.ifStm (.expr (.name "x")) (.scope (.next (.first (.assign "y" (.name "x")))
          (.stm (.output (.name "y")))))))) = .ok (root, h)
      ∧ root.erase = .addBranch
          (.addBranch .emptyScope (.operand (.decl 0 "x") .assign (.operand .null .stdIn .null)))
          (.ifNode (.decl 0 "x") (.addBranch .emptyScope (.addBranch
            (.addBranch .emptyScope (.operand (.decl 1 "y") .assign (.decl 0 "x")))
            (.operand .null .stdOut (.decl 1 "y")))))
      ∧ ∀ order : List ℕ → List ℕ, (∀ l, (order l).Perm l) →
        ∃ σ, root.delete order h.store = some σ ∧ ReleasedOnce h σ :=
  parseProgram_releasedOnce rfl

end ParaCL
