import CppGraduate.ParaCL.Objects
import Mathlib.Data.Finset.Basic
import Mathlib.Data.Multiset.Bind
import Mathlib.Tactic.Abel

/-!
# The release of a program

The destructors of the nodes, on the set of live objects. A node deletes
what it points to, except for declarations, which it tells by their type: so
it looks at each object it points to, and that object must be live. A scope
deletes its branches and then the declarations in its symbol table.

Every object of a program has one owner: each node and each scope the node
or the scope that points to it, or the chain of open scopes; each
declaration a symbol table. And every name stands for a declaration of a
scope around it, which is released after everything inside it. So the
release of the root deletes every object once, and looks at live objects
only.
-/

namespace ParaCL

/-! ## Destructors -/

/-- Who deletes an object. -/
inductive Via
  /-- The node that points to it, or the owner of the root. -/
  | node
  /-- The symbol table of a scope. -/
  | table (scope : ℕ)
deriving DecidableEq

/-- **The objects that are live**, the symbol tables, and what has been
deleted. -/
structure Store where
  /-- The objects that have been made and not deleted. -/
  live : Finset Obj
  /-- `GlobalTable` -/
  table : ℕ → Symbols
  /-- The deletions, in order. -/
  log : List (Via × Obj)

namespace Store

/-- A step that touches an object; `none` where it is not live. -/
def check (σ : Store) (o : Obj) : Option Unit := if o ∈ σ.live then some () else none

/-- The end of a `delete`: the object is not live any more. -/
def delete (σ : Store) (via : Via) (o : Obj) : Option Store := do
  σ.check o
  return { σ with live := σ.live.erase o, log := σ.log ++ [(via, o)] }

/-- `GlobalTable.free(scope)`: the declarations in the order in which the
table yields them. -/
def free (order : List ℕ → List ℕ) (σ : Store) (scope : ℕ) : Option Store := do
  let σ ← (order (σ.table scope).decls).foldlM (fun σ d => σ.delete (.table scope) (.decl d)) σ
  return { σ with table := Function.update σ.table scope ∅ }

end Store

namespace PNode

/-- The object a pointer points to. -/
def obj : PNode → Option Obj
  | .null => none
  | .value id _ | .operand id _ _ _ | .whileNode id _ _ | .ifNode id _ _ => some (.node id)
  | .decl id _ => some (.decl id)
  | .scope id _ => some (.scope id)

/-- Whether the object is a `Decl`. -/
def isDecl : PNode → Bool
  | .decl _ _ => true
  | _ => false

/-- `p && typeid(Decl) != typeid(*p)` -/
def isOwned (σ : Store) (p : PNode) : Option Bool :=
  match p.obj with
  | none => some false
  | some o => do
    σ.check o
    return !p.isDecl

/-- `if (p && typeid(Decl) != typeid(*p)) delete p;` -/
def ifOwned (p : PNode) (delete : Store → Option Store) (σ : Store) : Option Store := do
  if ← p.isOwned σ then delete σ
  else return σ

mutual

/-- `delete p` -/
def delete (order : List ℕ → List ℕ) : PNode → Store → Option Store
  | .null, σ => some σ
  | .value id _, σ => σ.delete .node (.node id)
  | .decl id _, σ => σ.delete .node (.decl id)
  | .scope id branches, σ => do
    σ.check (.scope id)
    let σ ← deleteAll order branches σ
    let σ ← σ.free order id
    σ.delete .node (.scope id)
  | .operand id left _ right, σ => do
    σ.check (.node id)
    let σ ← left.ifOwned (left.delete order) σ
    let σ ← right.ifOwned (right.delete order) σ
    σ.delete .node (.node id)
  | .whileNode id op body, σ => do
    σ.check (.node id)
    let σ ← op.ifOwned (op.delete order) σ
    let σ ← body.delete order σ
    σ.delete .node (.node id)
  | .ifNode id op body, σ => do
    σ.check (.node id)
    let σ ← op.ifOwned (op.delete order) σ
    let σ ← body.delete order σ
    σ.delete .node (.node id)

/-- `for (auto *B : Branches_) delete B;` -/
def deleteAll (order : List ℕ → List ℕ) : List PNode → Store → Option Store
  | [], σ => some σ
  | b :: bs, σ => do
    let σ ← b.delete order σ
    deleteAll order bs σ

end

/-! ## What belongs to a node -/

/-- The declarations in the table of a scope, as objects. -/
def declsOf (table : ℕ → Symbols) (scope : ℕ) : Multiset Obj :=
  ((table scope).decls.map .decl : List Obj)

mutual

/-- **What belongs to a node**: itself, what belongs to the nodes it points
to, and for a scope the declarations in its table. -/
def owned (table : ℕ → Symbols) : PNode → Multiset Obj
  | .null | .decl _ _ => 0
  | .value id _ => {.node id}
  | .scope id branches => ownedAll table branches + declsOf table id + {.scope id}
  | .operand id left _ right => left.owned table + right.owned table + {.node id}
  | .whileNode id op body | .ifNode id op body => op.owned table + body.owned table + {.node id}

/-- What belongs to the branches of a scope. -/
def ownedAll (table : ℕ → Symbols) : List PNode → Multiset Obj
  | [] => 0
  | b :: bs => b.owned table + ownedAll table bs

end

/-- The nodes and scopes among it. -/
def objects (n : PNode) : Multiset Obj := n.owned fun _ => ∅

mutual

/-- **Every declaration named is one of a scope around**, given the open
scopes around the node; only names point to declarations. -/
def Within (table : ℕ → Symbols) (around : List ℕ) : PNode → Prop
  | .null | .value _ _ => True
  | .decl id _ => ∃ i ∈ around, id ∈ (table i).decls
  | .scope id branches => WithinAll table (id :: around) branches
  | .operand _ left _ right => left.Within table around ∧ right.Within table around
  | .whileNode _ op body | .ifNode _ op body =>
    op.Within table around ∧ body.Within table around ∧ body.isDecl = false

/-- So it is in the branches of a scope. -/
def WithinAll (table : ℕ → Symbols) (around : List ℕ) : List PNode → Prop
  | [] => True
  | b :: bs => b.Within table around ∧ b.isDecl = false ∧ WithinAll table around bs

end

end PNode

/-! ## Releasing what is live -/

/-- Declarations are deleted by the table they are in, and nothing else
is. -/
def Proper (table : ℕ → Symbols) : Via × Obj → Prop
  | (.node, .decl _) => False
  | (.node, _) => True
  | (.table i, .decl id) => id ∈ (table i).decls
  | (.table _, _) => False

/-- Certain objects are deleted, each once, by those who own them. -/
structure Deleted (table : ℕ → Symbols) (σ σ' : Store) (m : Multiset Obj) : Prop where
  /-- They were live and are not any more. -/
  live : σ.live.val = σ'.live.val + m
  /-- They are what was deleted. -/
  log : ∃ l, σ'.log = σ.log ++ l ∧ (l.map Prod.snd : Multiset Obj) = m ∧ ∀ e ∈ l, Proper table e

/-- **What a deletion does**: the tables of scopes that are not deleted are
as before. -/
structure Removed (table : ℕ → Symbols) (σ σ' : Store) (m : Multiset Obj) : Prop
    extends Deleted table σ σ' m where
  table : ∀ i, .scope i ∉ m → σ'.table i = σ.table i

/-- **What a deletion needs**: the objects are live, and so are the
declarations of the scopes around, which are not among them; the tables are
those of the program. -/
structure Ready (table : ℕ → Symbols) (around : List ℕ) (σ : Store) (m : Multiset Obj) : Prop where
  live : m + (around : Multiset ℕ).bind (PNode.declsOf table) ≤ σ.live.val
  table : ∀ i, .scope i ∈ m → σ.table i = table i

variable {order : List ℕ → List ℕ} {table : ℕ → Symbols} {around : List ℕ} {σ σ' σ'' : Store}
  {m m' : Multiset Obj}

/-- Nothing is deleted. -/
theorem Removed.refl (table : ℕ → Symbols) (σ : Store) : Removed table σ σ 0 :=
  ⟨⟨(add_zero _).symm, ⟨[], (List.append_nil _).symm, rfl, nofun⟩⟩, fun _ _ => rfl⟩

/-- Deletions one after another. -/
theorem Deleted.trans (h : Deleted table σ σ' m) (h' : Deleted table σ' σ'' m') :
    Deleted table σ σ'' (m + m') where
  live := by rw [h.live, h'.live, add_right_comm, add_assoc]
  log := by
    obtain ⟨l, hl, hm, hp⟩ := h.log
    obtain ⟨l', hl', hm', hp'⟩ := h'.log
    refine ⟨l ++ l', by rw [hl', hl, List.append_assoc], ?_, fun e he => ?_⟩
    · rw [List.map_append, ← Multiset.coe_add, hm, hm']
    · exact (List.mem_append.mp he).elim (hp e) (hp' e)

/-- One deletion after another. -/
theorem Removed.trans (h : Removed table σ σ' m) (h' : Removed table σ' σ'' m') :
    Removed table σ σ'' (m + m') where
  toDeleted := h.toDeleted.trans h'.toDeleted
  table i hi := by
    rw [Multiset.mem_add, not_or] at hi
    rw [h'.table i hi.2, h.table i hi.1]

/-- The first part of what is to be deleted. -/
theorem Ready.first (h : Ready table around σ (m + m')) : Ready table around σ m where
  live := le_trans (add_le_add_left (Multiset.le_add_right m m') _) h.live
  table i hi := h.table i (Multiset.mem_add.mpr (Or.inl hi))

/-- What is left after the first part. -/
theorem Ready.rest (h : Ready table around σ (m + m')) (hm : Removed table σ σ' m) :
    Ready table around σ' m' where
  live := by
    have hle := h.live
    rw [hm.live, add_comm σ'.live.val, add_assoc] at hle
    exact le_of_add_le_add_left hle
  table i hi := by
    -- no object is in both parts
    have hnodup : (m + m').Nodup :=
      Multiset.nodup_of_le ((Multiset.le_add_right _ _).trans h.live) σ.live.nodup
    have hnot : .scope i ∉ m := fun him =>
      Multiset.disjoint_left.mp (Multiset.nodup_add.mp hnodup).2.2 him hi
    rw [hm.table i hnot, h.table i (Multiset.mem_add.mpr (Or.inr hi))]

/-- What is to be deleted is live. -/
theorem Ready.mem (h : Ready table around σ m) {o : Obj} (ho : o ∈ m) : o ∈ σ.live :=
  Multiset.mem_of_le h.live (Multiset.mem_add.mpr (Or.inl ho))

/-- The declarations of the scopes around are live. -/
theorem Ready.mem_around (h : Ready table around σ m) {i id : ℕ} (hi : i ∈ around)
    (hid : id ∈ (table i).decls) : .decl id ∈ σ.live := by
  refine Multiset.mem_of_le h.live (Multiset.mem_add.mpr (Or.inr ?_))
  exact Multiset.mem_bind.mpr ⟨i, hi, List.mem_map_of_mem hid⟩

/-- Inside a scope, its declarations are declarations of a scope around. -/
theorem Ready.enter {id : ℕ} (h : Ready table around σ (m + PNode.declsOf table id)) :
    Ready table (id :: around) σ m where
  live := by
    rw [← Multiset.cons_coe, Multiset.cons_bind, ← add_assoc]
    exact h.live
  table := h.first.table

/-- One object is touched. -/
theorem Store.check_of_mem {o : Obj} (h : o ∈ σ.live) : σ.check o = some () :=
  if_pos h

/-- **One object is deleted.** -/
theorem Store.delete_of_mem {σ : Store} {via : Via} {o : Obj} (h : o ∈ σ.live)
    (hp : Proper table (via, o)) : ∃ σ', σ.delete via o = some σ' ∧ Removed table σ σ' {o} := by
  refine ⟨{ σ with live := σ.live.erase o, log := σ.log ++ [(via, o)] }, ?_, ⟨?_, ?_⟩,
    fun _ _ => rfl⟩
  · unfold Store.delete
    rw [Store.check_of_mem h]
    rfl
  · rw [Finset.erase_val, add_comm, Multiset.singleton_add, Multiset.cons_erase h]
  · refine ⟨[(via, o)], rfl, rfl, fun e he => ?_⟩
    rw [List.mem_singleton.mp he]
    exact hp

/-- A node that is no declaration is deleted by the one that points to
it. -/
theorem Ready.delete_node {id : ℕ} (h : Ready table around σ {.node id}) :
    ∃ σ', σ.delete .node (.node id) = some σ' ∧ Removed table σ σ' {.node id} :=
  Store.delete_of_mem (h.mem (Multiset.mem_singleton_self _)) trivial

/-- The declarations of a scope, one after another. -/
theorem Store.foldlM_delete {i : ℕ} {l : List ℕ} (hl : (l.map .decl : List Obj) ≤ σ.live.val)
    (hi : ∀ id ∈ l, id ∈ (table i).decls) :
    ∃ σ', l.foldlM (fun σ d => σ.delete (.table i) (.decl d)) σ = some σ'
      ∧ Removed table σ σ' (l.map .decl : List Obj) := by
  induction l generalizing σ with
  | nil => exact ⟨σ, rfl, .refl table σ⟩
  | cons d l ih =>
    rw [List.map_cons, ← Multiset.cons_coe, ← Multiset.singleton_add] at hl ⊢
    have hmem : .decl d ∈ σ.live :=
      Multiset.mem_of_le hl (Multiset.mem_add.mpr (Or.inl (Multiset.mem_singleton_self _)))
    have hproper : Proper table (.table i, .decl d) := hi d List.mem_cons_self
    obtain ⟨σ₁, hd, hr⟩ := Store.delete_of_mem hmem hproper
    have hl' : (l.map .decl : List Obj) ≤ σ₁.live.val := by
      rw [hr.live, add_comm σ₁.live.val] at hl
      exact le_of_add_le_add_left hl
    obtain ⟨σ₂, hrest, hr'⟩ := ih hl' fun id hid => hi id (List.mem_cons_of_mem d hid)
    refine ⟨σ₂, ?_, hr.trans hr'⟩
    rw [List.foldlM_cons, hd]
    exact hrest

/-- **A scope after its branches**: its declarations and itself. -/
theorem Store.free_delete (horder : ∀ l, (order l).Perm l) {i : ℕ}
    (h : Ready table around σ (PNode.declsOf table i + {.scope i})) :
    ∃ σ₁ σ₂, σ.free order i = some σ₁ ∧ σ₁.delete .node (.scope i) = some σ₂
      ∧ Removed table σ σ₂ (PNode.declsOf table i + {.scope i}) := by
  have hi : σ.table i = table i :=
    h.table i (Multiset.mem_add.mpr (Or.inr (Multiset.mem_singleton_self _)))
  have hperm : ((order (σ.table i).decls).map .decl : List Obj) = PNode.declsOf table i := by
    unfold PNode.declsOf
    rw [hi, Multiset.coe_eq_coe]
    exact (horder _).map _
  have hle : ((order (σ.table i).decls).map .decl : List Obj) ≤ σ.live.val := by
    rw [hperm]
    exact (Multiset.le_add_right _ _).trans h.first.live
  have hmem : ∀ id ∈ order (σ.table i).decls, id ∈ (table i).decls := fun id hid => by
    rwa [hi, (horder _).mem_iff] at hid
  obtain ⟨σ₁, hfold, hr⟩ := Store.foldlM_delete hle hmem
  rw [hperm] at hr
  have hlive : .scope i ∈ σ₁.live := (h.rest hr).mem (Multiset.mem_singleton_self _)
  have hproper : Proper table (.node, .scope i) := trivial
  -- `Symbols_.clear()` comes between
  obtain ⟨σ₂, hd, hr'⟩ :=
    @Store.delete_of_mem table { σ₁ with table := Function.update σ₁.table i ∅ } _ _ hlive hproper
  refine ⟨_, σ₂, ?_, hd, ⟨hr.toDeleted.trans ⟨hr'.live, hr'.log⟩, fun j hj => ?_⟩⟩
  · unfold Store.free
    rw [hfold]
    rfl
  · rw [Multiset.mem_add, not_or, Multiset.mem_singleton] at hj
    have hji : j ≠ i := fun he => hj.2 (congrArg Obj.scope he)
    rw [hr'.table j (fun hm => hj.2 (Multiset.mem_singleton.mp hm))]
    show Function.update σ₁.table i ∅ j = _
    rw [Function.update_of_ne hji, hr.table j hj.1]

namespace PNode

/-- What is not a declaration is among what belongs to it. -/
theorem obj_mem_owned {n : PNode} {o : Obj} (h : n.obj = some o) (hd : n.isDecl = false) :
    o ∈ n.owned table := by
  cases n with
  | null => cases h
  | decl => cases hd
  | value | scope | operand | whileNode | ifNode =>
    cases h
    simp [owned]

/-- **What a node points to** is looked at, and deleted if it is no
declaration. -/
theorem ifOwned_spec {n : PNode} (hw : n.Within table around)
    (hr : Ready table around σ (n.owned table))
    (hspec : n.isDecl = false →
      ∃ σ', n.delete order σ = some σ' ∧ Removed table σ σ' (n.owned table)) :
    ∃ σ', n.ifOwned (n.delete order) σ = some σ' ∧ Removed table σ σ' (n.owned table) := by
  cases hd : n.isDecl with
  | true =>
    cases n with
    | decl id x =>
      obtain ⟨i, hi, hid⟩ := hw
      refine ⟨σ, ?_, .refl table σ⟩
      show ((σ.check (.decl id) >>= fun _ => some false) >>= _) = some σ
      rw [Store.check_of_mem (hr.mem_around hi hid)]
      rfl
    | _ => cases hd
  | false =>
    cases ho : n.obj with
    | none =>
      cases n with
      | null => exact ⟨σ, rfl, .refl table σ⟩
      | _ => cases ho
    | some o =>
      obtain ⟨σ', hdel, hrem⟩ := hspec hd
      refine ⟨σ', ?_, hrem⟩
      have hown : n.isOwned σ = some true := by
        unfold isOwned
        rw [ho]
        show (σ.check o >>= fun _ => some !n.isDecl) = _
        rw [Store.check_of_mem (hr.mem (obj_mem_owned ho hd)), hd]
        rfl
      unfold ifOwned
      rw [hown]
      exact hdel

/-- **A condition and a body**, and then the node that points to them. -/
theorem delete_body {op body : PNode} {id : ℕ}
    (hr : Ready table around σ (op.owned table + body.owned table + {.node id}))
    (hop : op.Within table around)
    (hospec : ∀ {σ}, Ready table around σ (op.owned table) → op.isDecl = false →
      ∃ σ', op.delete order σ = some σ' ∧ Removed table σ σ' (op.owned table))
    (hbspec : ∀ {σ}, Ready table around σ (body.owned table) →
      ∃ σ', body.delete order σ = some σ' ∧ Removed table σ σ' (body.owned table)) :
    ∃ σ₁ σ₂ σ₃, op.ifOwned (op.delete order) σ = some σ₁ ∧ body.delete order σ₁ = some σ₂
      ∧ σ₂.delete .node (.node id) = some σ₃
      ∧ Removed table σ σ₃ (op.owned table + body.owned table + {.node id}) := by
  rw [add_assoc] at hr ⊢
  obtain ⟨σ₁, ho, hrem⟩ := ifOwned_spec hop hr.first (hospec hr.first)
  have hr₁ := hr.rest hrem
  obtain ⟨σ₂, hb, hrem'⟩ := hbspec hr₁.first
  obtain ⟨σ₃, hdel, hrem''⟩ := (hr₁.rest hrem').delete_node
  exact ⟨σ₁, σ₂, σ₃, ho, hb, hdel, hrem.trans (hrem'.trans hrem'')⟩

mutual

/-- **Deleting a node** deletes what belongs to it. -/
theorem delete_spec (horder : ∀ l, (order l).Perm l) : ∀ (n : PNode) {around : List ℕ} {σ : Store},
    n.Within table around → n.isDecl = false → Ready table around σ (n.owned table) →
    ∃ σ', n.delete order σ = some σ' ∧ Removed table σ σ' (n.owned table)
  | .null, around, σ, _, _, _ => ⟨σ, rfl, .refl table σ⟩
  | .value id v, around, σ, _, _, hr =>
    Store.delete_of_mem (hr.mem (Multiset.mem_singleton_self _)) trivial
  | .decl id x, around, σ, _, hd, _ => nomatch hd
  | .scope id branches, around, σ, hw, _, hr => by
    have hmem : .scope id ∈ σ.live := hr.mem (obj_mem_owned rfl rfl)
    unfold owned at hr ⊢
    obtain ⟨σ₁, hall, hrem⟩ := deleteAll_spec horder branches hw hr.first.enter
    rw [add_assoc] at hr ⊢
    obtain ⟨σ₂, σ₃, hfree, hdel, hrem'⟩ := Store.free_delete horder (hr.rest hrem)
    refine ⟨σ₃, ?_, hrem.trans hrem'⟩
    simp only [delete, Store.check_of_mem hmem, hall, hfree, hdel, Option.bind_eq_bind,
      Option.bind_some]
  | .operand id left op right, around, σ, hw, _, hr => by
    have hmem : .node id ∈ σ.live := hr.mem (obj_mem_owned rfl rfl)
    unfold owned at hr ⊢
    rw [add_assoc] at hr ⊢
    obtain ⟨σ₁, hl, hrem⟩ := ifOwned_spec hw.1 hr.first fun hd =>
      delete_spec horder left hw.1 hd hr.first
    have hr₁ := hr.rest hrem
    obtain ⟨σ₂, hr, hrem'⟩ := ifOwned_spec hw.2 hr₁.first fun hd =>
      delete_spec horder right hw.2 hd hr₁.first
    obtain ⟨σ₃, hdel, hrem''⟩ := (hr₁.rest hrem').delete_node
    refine ⟨σ₃, ?_, hrem.trans (hrem'.trans hrem'')⟩
    simp only [delete, Store.check_of_mem hmem, hl, hr, hdel, Option.bind_eq_bind,
      Option.bind_some]
  | .whileNode id op body, around, σ, hw, _, hr => by
    have hmem : .node id ∈ σ.live := hr.mem (obj_mem_owned rfl rfl)
    obtain ⟨hop, hbody, hd⟩ := hw
    obtain ⟨σ₁, σ₂, σ₃, ho, hb, hdel, hrem⟩ := delete_body hr hop
      (fun hr hd => delete_spec horder op hop hd hr) fun hr => delete_spec horder body hbody hd hr
    refine ⟨σ₃, ?_, hrem⟩
    simp only [delete, Store.check_of_mem hmem, ho, hb, hdel, Option.bind_eq_bind,
      Option.bind_some]
  | .ifNode id op body, around, σ, hw, _, hr => by
    have hmem : .node id ∈ σ.live := hr.mem (obj_mem_owned rfl rfl)
    obtain ⟨hop, hbody, hd⟩ := hw
    obtain ⟨σ₁, σ₂, σ₃, ho, hb, hdel, hrem⟩ := delete_body hr hop
      (fun hr hd => delete_spec horder op hop hd hr) fun hr => delete_spec horder body hbody hd hr
    refine ⟨σ₃, ?_, hrem⟩
    simp only [delete, Store.check_of_mem hmem, ho, hb, hdel, Option.bind_eq_bind,
      Option.bind_some]

/-- **Deleting the branches of a scope** deletes what belongs to them. -/
theorem deleteAll_spec (horder : ∀ l, (order l).Perm l) : ∀ (bs : List PNode) {around : List ℕ}
    {σ : Store}, WithinAll table around bs → Ready table around σ (ownedAll table bs) →
    ∃ σ', deleteAll order bs σ = some σ' ∧ Removed table σ σ' (ownedAll table bs)
  | [], around, σ, _, _ => ⟨σ, rfl, .refl table σ⟩
  | b :: bs, around, σ, hw, hr => by
    obtain ⟨hb, hd, hbs⟩ := hw
    obtain ⟨σ₁, hdel, hrem⟩ := delete_spec horder b hb hd hr.first
    obtain ⟨σ₂, hall, hrem'⟩ := deleteAll_spec horder bs hbs (hr.rest hrem)
    refine ⟨σ₂, ?_, hrem.trans hrem'⟩
    unfold deleteAll
    rw [hdel]
    exact hall

end

end PNode

end ParaCL
