import Tinypipe.Lib.Stateful
import Tinypipe.Programs

/-! The graph the transformer builds (`tinypipe-compiler/src/transform.rs`). Its ids are laid out in a
list in which every edge leads forward; a node whose arguments are still being transformed stays
behind everything until they are done. -/

namespace Tinypipe

open Lib Ast Stateful

namespace Transformer

/-- The ids made so far: those in place, and those still open, which no edge leaves. -/
structure Layout (e : TransformEngine) (order opened : List Text) : Prop where
  nodup : (order ++ opened).Nodup
  named : ∀ id ∈ order ++ opened, ∃ k < e.nextId, id = nodeId k
  ids : (e.nodes.map Node.id).Nodup
  placed : ∀ nd ∈ e.nodes, nd.id ∈ order ++ opened
  edges : ∀ edge ∈ e.edges, [edge.fromId, edge.toId].Sublist order ∨
    edge.fromId ∈ order ∧ edge.toId ∈ opened
  vars : ∀ x id, e.varMap.get x = some id → id ∈ order

theorem nodeId_inj {j k : Nat} (h : nodeId j = nodeId k) : j = k := by
  have hdigits : Text.ofNat j = Text.ofNat k := (List.cons.inj h).2
  exact Option.some.inj ((Text.parseNat_ofNat j).symm.trans (hdigits ▸ Text.parseNat_ofNat k))

namespace Layout

variable {e e' : TransformEngine} {order opened : List Text}

theorem empty : Layout TransformEngine.new [] [] where
  nodup := List.nodup_nil
  named := nofun
  ids := List.nodup_nil
  placed := nofun
  edges := nofun
  vars := nofun

theorem fresh (h : Layout e order opened) : nodeId e.nextId ∉ order ++ opened := by
  intro hmem
  obtain ⟨k, hk, heq⟩ := h.named _ hmem
  exact hk.ne (nodeId_inj heq).symm

/-- An engine with the same nodes, edges and variables. -/
theorem same (h : Layout e order opened) (hnodes : e'.nodes = e.nodes) (hedges : e'.edges = e.edges)
    (hvars : e'.varMap = e.varMap) (hnext : e'.nextId = e.nextId) : Layout e' order opened where
  nodup := h.nodup
  named := by rw [hnext]; exact h.named
  ids := by rw [hnodes]; exact h.ids
  placed := by rw [hnodes]; exact h.placed
  edges := by rw [hedges]; exact h.edges
  vars := by rw [hvars]; exact h.vars

theorem opens (h : Layout e order opened) (hnodes : e'.nodes = e.nodes) (hedges : e'.edges = e.edges)
    (hvars : e'.varMap = e.varMap) (hnext : e'.nextId = e.nextId + 1) :
    Layout e' order (nodeId e.nextId :: opened) where
  nodup := List.nodup_middle.2 (List.nodup_cons.2 ⟨h.fresh, h.nodup⟩)
  named := by
    intro id hid
    rw [hnext]
    rcases List.mem_cons.1 (List.perm_middle.mem_iff.1 hid) with rfl | hid
    · exact ⟨e.nextId, Nat.lt_succ_self _, rfl⟩
    · obtain ⟨k, hk, rfl⟩ := h.named id hid
      exact ⟨k, hk.trans (Nat.lt_succ_self _), rfl⟩
  ids := by rw [hnodes]; exact h.ids
  placed := by
    rw [hnodes]
    intro nd hnd
    exact List.perm_middle.mem_iff.2 (List.mem_cons_of_mem _ (h.placed nd hnd))
  edges := by
    rw [hedges]
    intro edge hedge
    exact (h.edges edge hedge).imp_right fun hopen => ⟨hopen.1, List.mem_cons_of_mem _ hopen.2⟩
  vars := by rw [hvars]; exact h.vars

/-- Once nothing is added below it, an open id takes its place. -/
theorem close {id : Text} (h : Layout e order (id :: opened)) : Layout e (order ++ [id]) opened where
  nodup := by
    rw [List.append_assoc]
    exact h.nodup
  named := by
    rw [List.append_assoc]
    exact h.named
  ids := h.ids
  placed := by
    rw [List.append_assoc]
    exact h.placed
  edges := by
    intro edge hedge
    rcases h.edges edge hedge with hin | ⟨hfrom, hto⟩
    · exact Or.inl (hin.trans (List.sublist_append_left _ _))
    · rcases List.mem_cons.1 hto with heq | hto
      · rw [heq]
        exact Or.inl ((List.singleton_sublist.2 hfrom).append (List.Sublist.refl [id]))
      · exact Or.inr ⟨List.mem_append_left _ hfrom, hto⟩
  vars := fun x id hx => List.mem_append_left _ (h.vars x id hx)

theorem addNode {nd : Node} (h : Layout e order opened) (hnodes : e'.nodes = e.nodes ++ [nd])
    (hedges : e'.edges = e.edges) (hvars : e'.varMap = e.varMap) (hnext : e'.nextId = e.nextId + 1)
    (hid : nd.id = nodeId e.nextId) : Layout e' order (nodeId e.nextId :: opened) := by
  have hopen : Layout { e with nextId := e.nextId + 1 } order (nodeId e.nextId :: opened) :=
    h.opens rfl rfl rfl rfl
  refine ⟨hopen.nodup, by rw [hnext]; exact hopen.named, ?_, ?_, by rw [hedges]; exact hopen.edges,
    by rw [hvars]; exact hopen.vars⟩
  · rw [hnodes, List.map_append, List.map_singleton, hid]
    refine h.ids.append (List.nodup_singleton _) ?_
    rw [List.disjoint_singleton]
    intro hmem
    obtain ⟨nd', hnd', heq⟩ := List.mem_map.1 hmem
    exact h.fresh (heq ▸ h.placed nd' hnd')
  · rw [hnodes]
    intro nd' hnd'
    rcases List.mem_append.1 hnd' with hnd' | hnd'
    · exact hopen.placed nd' hnd'
    · rw [List.mem_singleton.1 hnd', hid]
      exact List.mem_append_right _ List.mem_cons_self

theorem pushNode {op : Opcode} {args : List Arg} {id : Text} (h : Layout e order opened)
    (hpush : Transformer.pushNode op args e = .ok id e') :
    Layout e' order (id :: opened) ∧ e'.metaJson = e.metaJson := by
  cases hpush
  exact ⟨h.addNode rfl rfl rfl rfl rfl, rfl⟩

theorem addEdge {edge : Edge} (h : Layout e order opened)
    (hedge : [edge.fromId, edge.toId].Sublist order ∨ edge.fromId ∈ order ∧ edge.toId ∈ opened) :
    Layout { e with edges := e.edges ++ [edge] } order opened := by
  refine ⟨h.nodup, h.named, h.ids, h.placed, fun edge' hedge' => ?_, h.vars⟩
  rcases List.mem_append.1 hedge' with hedge' | hedge'
  · exact h.edges edge' hedge'
  · rw [List.mem_singleton.1 hedge']
    exact hedge

theorem setVar {x id : Text} (h : Layout e order opened) (hid : id ∈ order) :
    Layout { e with varMap := e.varMap.set x id } order opened := by
  refine ⟨h.nodup, h.named, h.ids, h.placed, h.edges, fun y id' hy => ?_⟩
  rw [Dict.get_set] at hy
  split at hy
  · cases hy
    exact hid
  · exact h.vars y id' hy

end Layout

theorem before_append {a b : Text} {l r : List Text} (ha : a ∈ l) (hb : b ∈ r) : [a, b].Sublist (l ++ r) :=
  (List.singleton_sublist.2 ha).append (List.singleton_sublist.2 hb)

/-! ### What each part adds -/

/-- A part that lays out the ids it makes behind those in place: `known` are some of these, in their
order, and `opens` some of the open ones. -/
def Lays {α : Type} (known opens : List Text) (x : Transformer α) (post : α → List Text → Prop) : Prop :=
  ∀ e order opened a e', Layout e order opened → known.Sublist order → opens ⊆ opened → x e = .ok a e' →
    ∃ added, Layout e' (order ++ added) opened ∧ e'.metaJson = e.metaJson ∧ post a added

section Rules

variable {α β : Type} {known opens : List Text}

theorem Lays.pure {a : α} {post : α → List Text → Prop} (h : post a []) : Lays known opens (pure a) post := by
  intro e order opened b e' hlayout _ _ hx
  cases hx
  exact ⟨[], by rw [List.append_nil]; exact hlayout, rfl, h⟩

theorem Lays.throw (errors : List Text) (post : α → List Text → Prop) : Lays known opens (throw errors) post := by
  intro e order opened b e' _ _ _ hx
  cases hx

/-- The second part knows what the first one added. -/
theorem Lays.bind {x : Transformer α} {f : α → Transformer β} {mid : α → List Text → Prop}
    {post : β → List Text → Prop} (hx : Lays known opens x mid)
    (hf : ∀ a added, mid a added → Lays (known ++ added) opens (f a) fun b more => post b (added ++ more)) :
    Lays known opens (x >>= f) post := by
  intro e order opened b e'' hlayout hknown hopens hbind
  obtain ⟨a, e', hxe, hfe⟩ := bind_ok hbind
  obtain ⟨added, hlayout', hmeta, hmid⟩ := hx e order opened a e' hlayout hknown hopens hxe
  obtain ⟨more, hlayout'', hmeta', hpost⟩ :=
    hf a added hmid e' (order ++ added) opened b e'' hlayout' (hknown.append_right added) hopens hfe
  exact ⟨added ++ more, by rw [← List.append_assoc]; exact hlayout'', hmeta'.trans hmeta, hpost⟩

/-- A first part that adds no ids. -/
theorem Lays.andThen {x : Transformer α} {f : α → Transformer β} {post : β → List Text → Prop}
    (hx : Lays known opens x fun _ added => added = []) (hf : ∀ a, Lays known opens (f a) post) :
    Lays known opens (x >>= f) post := by
  refine hx.bind fun a added hadded => ?_
  rw [hadded, List.append_nil]
  exact hf a

/-- A node that stays open during the rest, which makes its edges. -/
theorem Lays.opening {op : Opcode} {args : List Arg} {f : Text → Transformer β} {post : β → List Text → Prop}
    (hf : ∀ id, Lays known (id :: opens) (f id) fun b added => post b (added ++ [id])) :
    Lays known opens (pushNode op args >>= f) post := by
  intro e order opened b e'' hlayout hknown hopens hbind
  obtain ⟨id, e', hpush, hfe⟩ := bind_ok hbind
  obtain ⟨hopen, hmeta⟩ := hlayout.pushNode hpush
  obtain ⟨added, hlayout', hmeta', hpost⟩ := hf id e' order (id :: opened) b e'' hopen hknown
    (List.cons_subset_cons id hopens) hfe
  exact ⟨added ++ [id], by rw [← List.append_assoc]; exact hlayout'.close, hmeta'.trans hmeta, hpost⟩

theorem Lays.get_bind {f : TransformEngine → Transformer β} {post : β → List Text → Prop}
    (hf : ∀ e, Lays known opens (f e) post) : Lays known opens (get >>= f) post :=
  fun e order opened b e' hlayout hknown hopens hx => hf e e order opened b e' hlayout hknown hopens hx

theorem Lays.mono {x : Transformer α} {known' opens' : List Text} {post post' : α → List Text → Prop}
    (hx : Lays known' opens' x post) (hknown : known'.Sublist known) (hopens : opens' ⊆ opens)
    (hpost : ∀ a added, post a added → post' a added) : Lays known opens x post' := by
  intro e order opened a e' hlayout hk ho hxe
  obtain ⟨added, hlayout', hmeta, h⟩ :=
    hx e order opened a e' hlayout (hknown.trans hk) (List.Subset.trans hopens ho) hxe
  exact ⟨added, hlayout', hmeta, hpost a added h⟩

theorem Lays.ite {c : Prop} [Decidable c] {x y : Transformer α} {post : α → List Text → Prop}
    (hx : Lays known opens x post) (hy : Lays known opens y post) : Lays known opens (if c then x else y) post := by
  split
  · exact hx
  · exact hy

/-- A change of the engine that the layout does not see. -/
theorem Lays.modify {f : TransformEngine → TransformEngine} (hnodes : ∀ e, (f e).nodes = e.nodes)
    (hedges : ∀ e, (f e).edges = e.edges) (hvars : ∀ e, (f e).varMap = e.varMap)
    (hnext : ∀ e, (f e).nextId = e.nextId) (hmeta : ∀ e, (f e).metaJson = e.metaJson) :
    Lays known opens (modify f) fun _ added => added = [] := by
  intro e order opened a e' hlayout _ _ hx
  cases hx
  exact ⟨[], by rw [List.append_nil]; exact hlayout.same (hnodes e) (hedges e) (hvars e) (hnext e), hmeta e, rfl⟩

theorem lays_genId : Lays known opens genId fun id added => added = [id] := by
  intro e order opened id e' hlayout _ _ hx
  cases hx
  have hopen : Layout { e with nextId := e.nextId + 1 } order (nodeId e.nextId :: opened) :=
    hlayout.opens rfl rfl rfl rfl
  exact ⟨[nodeId e.nextId], hopen.close, rfl, rfl⟩

theorem lays_pushNode (op : Opcode) (args : List Arg) :
    Lays known opens (pushNode op args) fun id added => added = [id] := by
  intro e order opened id e' hlayout _ _ hx
  obtain ⟨hopen, hmeta⟩ := hlayout.pushNode hx
  exact ⟨[id], hopen.close, hmeta, rfl⟩

theorem lays_addEdge {edge : Edge}
    (h : [edge.fromId, edge.toId].Sublist known ∨ edge.fromId ∈ known ∧ edge.toId ∈ opens) :
    Lays known opens (addEdge edge) fun _ added => added = [] := by
  intro e order opened a e' hlayout hknown hopens hx
  cases hx
  refine ⟨[], ?_, rfl, rfl⟩
  rw [List.append_nil]
  exact hlayout.addEdge (h.imp (fun h => h.trans hknown) fun h => ⟨hknown.subset h.1, hopens h.2⟩)

theorem lays_setVar {x id : Text} (h : id ∈ known) : Lays known opens (setVar x id) fun _ added => added = [] := by
  intro e order opened a e' hlayout hknown _ hx
  cases hx
  exact ⟨[], by rw [List.append_nil]; exact hlayout.setVar (hknown.subset h), rfl, rfl⟩

theorem lays_error (msg : Text) : Lays known opens (error msg) fun _ added => added = [] :=
  Lays.modify (fun _ => rfl) (fun _ => rfl) (fun _ => rfl) (fun _ => rfl) fun _ => rfl

theorem lays_checkErrors : Lays known opens checkErrors fun _ added => added = [] :=
  Lays.get_bind fun _ => Lays.ite (Lays.throw _ _) (Lays.pure rfl)

theorem lays_noNodes : Lays known opens noNodes fun ids added => ids.1 ∈ added ∧ ids.2 ∈ added := by
  refine Lays.bind lays_genId fun a added ha => ?_
  refine Lays.bind lays_genId fun b more hb => Lays.pure ?_
  rw [ha, hb]
  simp

theorem lays_addOutput (id name : Text) : Lays known opens (addOutput id name) fun _ added => added = [] := by
  intro e order opened a e' hlayout _ _ hx
  cases hx
  have hids : (e.nodes.map fun nd =>
      if nd.id = id then { nd with args := nd.args ++ [⟨"output", .string name⟩] } else nd).map Node.id =
      e.nodes.map Node.id := by
    rw [List.map_map]
    refine List.map_congr_left fun nd _ => ?_
    simp only [Function.comp_apply]
    split <;> rfl
  refine ⟨[], ?_, rfl, rfl⟩
  rw [List.append_nil]
  refine ⟨hlayout.nodup, hlayout.named, by rw [hids]; exact hlayout.ids, fun nd hnd => ?_, hlayout.edges, hlayout.vars⟩
  have hmem := List.mem_map_of_mem (f := Node.id) hnd
  rw [hids] at hmem
  obtain ⟨nd', hnd', heq⟩ := List.mem_map.1 hmem
  exact heq ▸ hlayout.placed nd' hnd'

/-- The variables of an expression lead to an open node. -/
theorem lays_wireNames {target : Text} (htarget : target ∈ opens) (names : List Text) :
    Lays known opens (wireNames target names) fun _ added => added = [] := by
  induction names with
  | nil => exact Lays.pure rfl
  | cons name names ih =>
    intro e order opened a e' hlayout hknown hopens hx
    rw [wireNames, Stateful.get_bind] at hx
    cases hsrc : e.varMap.get name with
    | none =>
      rw [hsrc] at hx
      exact ih e order opened a e' hlayout hknown hopens hx
    | some src =>
      rw [hsrc] at hx
      obtain ⟨_, t, hedge, hrest⟩ := bind_ok hx
      cases hedge
      have hlayout' : Layout { e with edges := e.edges ++ [Edge.new src target] } order opened :=
        hlayout.addEdge (.inr ⟨hlayout.vars name src hsrc, hopens htarget⟩)
      have hadded := ih _ order opened a e' hlayout' hknown hopens hrest
      exact hadded

theorem lays_pushEdges {target : Text} (htarget : target ∈ opens) {ids : List Text} (hids : ∀ id ∈ ids, id ∈ known) :
    Lays known opens (pushEdges target ids) fun _ added => added = [] := by
  induction ids with
  | nil => exact Lays.pure rfl
  | cons id ids ih =>
    refine Lays.andThen (lays_addEdge (Or.inr ⟨hids id List.mem_cons_self, htarget⟩)) fun _ => ?_
    exact ih fun i hi => hids i (List.mem_cons_of_mem id hi)

end Rules

/-! ### Expressions -/

mutual

theorem lays_transformExprToNode {known opens : List Text} : ∀ e : Expr,
    Lays known opens (transformExprToNode e) fun id added => id ∈ added
  | .call func args keywords => by
    rw [transformExprToNode]
    cases calleeNameStr func with
    | none =>
      refine Lays.andThen (lays_error _) fun _ => ?_
      exact lays_genId.mono (List.Sublist.refl _) (List.Subset.refl _) fun id more hmore => by rw [hmore]; simp
    | some name =>
      refine Lays.ite ?_ (Lays.ite ?_ (Lays.ite ?_ ?_))
      · refine Lays.opening fun id => ?_
        refine Lays.bind (lays_wireArgs List.mem_cons_self args) fun _ added _ => ?_
        refine Lays.bind (lays_wireKeywords List.mem_cons_self keywords) fun _ more _ => Lays.pure ?_
        simp
      · refine Lays.opening fun id => ?_
        refine Lays.bind (lays_wireArgs List.mem_cons_self args) fun _ added _ => Lays.pure ?_
        simp
      · refine Lays.bind (lays_transformArgs args) fun ids added hids => Lays.opening fun id => ?_
        refine Lays.andThen (lays_pushEdges List.mem_cons_self fun i hi => List.mem_append_right _ (hids i hi))
          fun _ => Lays.pure ?_
        simp
      · refine Lays.opening fun id => ?_
        refine Lays.bind (lays_wireArgs List.mem_cons_self args) fun _ added _ => ?_
        refine Lays.bind (lays_wireKeywords List.mem_cons_self keywords) fun _ more _ => Lays.pure ?_
        simp
  | .boolOp .. | .namedExpr .. | .binOp .. | .unaryOp .. | .lambda .. | .ifExp .. | .dict .. | .set .. | .listComp ..
  | .setComp .. | .dictComp .. | .generatorExp .. | .await .. | .yield .. | .yieldFrom .. | .compare ..
  | .formattedValue .. | .joinedStr .. | .constant .. | .attribute .. | .subscript .. | .starred .. | .name ..
  | .list .. | .tuple .. | .slice .. => by
    rw [transformExprToNode]
    refine Lays.opening fun id => ?_
    refine Lays.andThen (lays_wireNames List.mem_cons_self _) fun _ => Lays.pure ?_
    simp
    all_goals nofun

theorem lays_wireArgs {known opens : List Text} {target : Text} (htarget : target ∈ opens) : ∀ es : List Expr,
    Lays known opens (wireArgs target es) fun _ _ => True
  | [] => Lays.pure trivial
  | e :: es => by
    rw [wireArgs]
    refine Lays.bind (lays_transformExprToNode e) fun id added hid => ?_
    refine Lays.andThen (lays_addEdge (Or.inr ⟨List.mem_append_right _ hid, htarget⟩)) fun _ => ?_
    exact lays_wireArgs htarget es

theorem lays_wireKeywords {known opens : List Text} {target : Text} (htarget : target ∈ opens) : ∀ ks : List Keyword,
    Lays known opens (wireKeywords target ks) fun _ _ => True
  | [] => Lays.pure trivial
  | .mk _ v :: ks => by
    rw [wireKeywords]
    refine Lays.bind (lays_transformExprToNode v) fun id added hid => ?_
    refine Lays.andThen (lays_addEdge (Or.inr ⟨List.mem_append_right _ hid, htarget⟩)) fun _ => ?_
    exact lays_wireKeywords htarget ks

theorem lays_transformArgs {known opens : List Text} : ∀ es : List Expr,
    Lays known opens (transformArgs es) fun ids added => ∀ id ∈ ids, id ∈ added
  | [] => Lays.pure nofun
  | e :: es => by
    rw [transformArgs]
    refine Lays.bind (lays_transformExprToNode e) fun id added hid => ?_
    refine Lays.bind (lays_transformArgs es) fun ids more hids => Lays.pure ?_
    intro i hi
    rcases List.mem_cons.1 hi with rfl | hi
    · exact List.mem_append_left _ hid
    · exact List.mem_append_right _ (List.mem_append_left _ (hids i hi))

end

/-! ### Statements -/

section Parts

variable {α : Type} {known opens : List Text}

/-- A part run from an engine that differs in nothing the layout sees. -/
theorem Lays.within {f : TransformEngine → TransformEngine} {k : TransformEngine → Transformer α}
    {post : α → List Text → Prop} (hnodes : ∀ e, (f e).nodes = e.nodes) (hedges : ∀ e, (f e).edges = e.edges)
    (hvars : ∀ e, (f e).varMap = e.varMap) (hnext : ∀ e, (f e).nextId = e.nextId)
    (hmeta : ∀ e, (f e).metaJson = e.metaJson) (hk : ∀ e, Lays known opens (k e) post) :
    Lays known opens (do
      let e ← get
      set (f e)
      k e) post := by
  intro e order opened a e' hlayout hknown hopens hx
  have hlayout' : Layout (f e) order opened := hlayout.same (hnodes e) (hedges e) (hvars e) (hnext e)
  obtain ⟨added, hadded, hsame, hpost⟩ := hk e (f e) order opened a e' hlayout' hknown hopens hx
  exact ⟨added, hadded, hsame.trans (hmeta e), hpost⟩

theorem lays_inside (place : Place) {part : Transformer α} {post : α → List Text → Prop}
    (h : Lays known opens part post) : Lays known opens (inside place part) post := by
  refine Lays.within (f := fun e => { e with nesting := e.nesting ++ [place] }) (fun _ => rfl) (fun _ => rfl)
    (fun _ => rfl) (fun _ => rfl) (fun _ => rfl) fun e => ?_
  refine h.bind fun a added hpost => ?_
  refine Lays.andThen (Lays.modify (fun _ => rfl) (fun _ => rfl) (fun _ => rfl) (fun _ => rfl) fun _ => rfl) fun _ => ?_
  exact Lays.pure (by rw [List.append_nil]; exact hpost)

theorem lays_newVars (before : Dict Text Text) : Lays known opens (newVars before) fun _ added => added = [] :=
  Lays.get_bind fun _ => Lays.pure rfl

theorem lays_setVarsTo {id : Text} (h : id ∈ known) (vs : List Text) :
    Lays known opens (setVarsTo id vs) fun _ added => added = [] := by
  induction vs with
  | nil => exact Lays.pure rfl
  | cons v vs ih => exact Lays.andThen (lays_setVar h) fun _ => ih

/-- The first and the last node of a block are among some ids. -/
structure Block.Among (b : Block) (ids : List Text) : Prop where
  first : ∀ id, b.first = some id → id ∈ ids
  last : ∀ id, b.last = some id → id ∈ ids

theorem Block.Among.empty (ids : List Text) : Block.Among Block.empty ids := ⟨nofun, nofun⟩

theorem Block.Among.next {b : Block} {ids added : List Text} (h : b.Among ids) {first last : Text} (terminal : Bool)
    (hfirst : first ∈ added) (hlast : last ∈ added) : (b.next first last terminal).Among (ids ++ added) := by
  refine ⟨fun id hid => ?_, fun id hid => ?_⟩
  · cases hb : b.first with
    | none =>
      rw [Block.next, hb] at hid
      cases hid
      exact List.mem_append_right _ hfirst
    | some first' =>
      rw [Block.next, hb] at hid
      cases hid
      exact List.mem_append_left _ (h.first first' hb)
  · cases hid
    exact List.mem_append_right _ hlast

theorem Block.Among.mono {b : Block} {ids ids' : List Text} (h : b.Among ids) (hsub : ∀ id ∈ ids, id ∈ ids') :
    b.Among ids' :=
  ⟨fun id hid => hsub id (h.first id hid), fun id hid => hsub id (h.last id hid)⟩

theorem Block.Among.getD {b : Block} {ids more : List Text} {fallback : Text} (h : b.Among ids)
    (hfallback : fallback ∈ more) : b.first.getD fallback ∈ ids ++ more ∧ b.last.getD fallback ∈ ids ++ more := by
  constructor
  · cases hb : b.first with
    | none => exact List.mem_append_right _ hfallback
    | some first => exact List.mem_append_left _ (h.first first hb)
  · cases hb : b.last with
    | none => exact List.mem_append_right _ hfallback
    | some last => exact List.mem_append_left _ (h.last last hb)

theorem lays_chainTo (chain : Chain) {b : Block} {first : Text}
    (h : ∀ prev, b.last = some prev → [prev, first].Sublist known) :
    Lays known opens (chainTo chain b first) fun _ added => added = [] := by
  rw [chainTo]
  cases hprev : b.last with
  | none => exact Lays.pure rfl
  | some prev =>
    cases chain with
    | control => exact Lays.ite (Lays.pure rfl) (lays_addEdge (Or.inl (h prev hprev)))
    | data => exact lays_addEdge (Or.inl (h prev hprev))
    | unchained => exact Lays.pure rfl

theorem lays_gateBranch {decide : Text} (label : Text) {b : Block} {ids : List Text} (hb : b.Among ids)
    (h : ∀ id ∈ ids, [decide, id].Sublist known) :
    Lays known opens (gateBranch decide label b) fun _ added => added = [] := by
  have hlast : ∀ last, b.last = some last →
      Lays known opens (pushCondEdge decide last label) fun _ added => added = [] := fun last hl =>
    lays_addEdge (Or.inl (h last (hb.last last hl)))
  have hfirst : ∀ first, b.first = some first →
      Lays known opens (if b.first ≠ b.last then pushCondEdge decide first label else pure ())
        fun _ added => added = [] := fun first hf =>
    Lays.ite (lays_addEdge (Or.inl (h first (hb.first first hf)))) (Lays.pure rfl)
  rw [gateBranch]
  cases hl : b.last with
  | none =>
    cases hf : b.first with
    | none => exact Lays.pure rfl
    | some first =>
      rw [hl, hf] at hfirst
      exact hfirst first rfl
  | some last =>
    refine Lays.andThen (hlast last hl) fun _ => ?_
    cases hf : b.first with
    | none => exact Lays.pure rfl
    | some first =>
      rw [hl, hf] at hfirst
      exact hfirst first rfl

theorem lays_joinBranch {merge : Text} (terminal : Bool) {b : Block} {ids : List Text} (hb : b.Among ids)
    (h : ∀ id ∈ ids, [id, merge].Sublist known) :
    Lays known opens (joinBranch merge terminal b) fun _ added => added = [] := by
  rw [joinBranch]
  cases hl : b.last with
  | none => exact Lays.pure rfl
  | some last => exact Lays.ite (Lays.pure rfl) (lays_addEdge (Or.inl (h last (hb.last last hl))))

theorem lays_pushSwitchEdge {switch first : Text} (h : [switch, first].Sublist known) (condition : Option Text) :
    Lays known opens (pushSwitchEdge switch first condition) fun _ added => added = [] := by
  cases condition <;> exact lays_addEdge (Or.inl h)

theorem lays_closeIf {decide : Text} (body orelse : List Stmt) {b b' : Block} (vars : List Text)
    (hdecide : decide ∈ known) (hb : b.Among known) (hb' : b'.Among known) :
    Lays known opens (closeIf decide body orelse b b' vars) fun ids added =>
      ids.1 = decide ∧ (ids.2 = decide ∨ ids.2 ∈ added) := by
  rw [closeIf]
  refine Lays.ite (Lays.pure ⟨rfl, Or.inl rfl⟩) ?_
  refine Lays.bind (lays_pushNode _ _) fun merge added hmerge => ?_
  have hbefore : ∀ id ∈ known, [id, merge].Sublist (known ++ added) := fun id hid =>
    before_append hid (by rw [hmerge]; exact List.mem_singleton_self merge)
  refine Lays.andThen (lays_joinBranch _ hb hbefore) fun _ => ?_
  refine Lays.andThen (lays_joinBranch _ hb' hbefore) fun _ => ?_
  have hedge : Lays (known ++ added) opens (pushCondEdge decide merge "false") fun _ added => added = [] :=
    lays_addEdge (Or.inl (hbefore decide hdecide))
  have hrest : Lays (known ++ added) opens (setVarsTo merge vars >>= fun _ => pure (decide, merge))
      fun ids more => ids.1 = decide ∧ (ids.2 = decide ∨ ids.2 ∈ added ++ more) :=
    Lays.andThen (lays_setVarsTo (by rw [hmerge]; simp) vars) fun _ => Lays.pure ⟨rfl, Or.inr (by rw [hmerge]; simp)⟩
  exact Lays.ite (Lays.andThen hedge fun _ => hrest) hrest

/-- Whatever node holds the variable is in place. -/
theorem lays_resolveVar {name : Text} {f : Text → Transformer α} {post : α → List Text → Prop}
    (hf : ∀ id added, Lays [id] opens (f id) fun a more => post a (added ++ more)) :
    Lays known opens (resolveVar name >>= f) post := by
  intro e order opened a e'' hlayout hknown hopens hbind
  obtain ⟨id, e', hresolve, hfe⟩ := bind_ok hbind
  have hplaced : ∃ added, Layout e' (order ++ added) opened ∧ e'.metaJson = e.metaJson ∧ id ∈ order ++ added := by
    rw [resolveVar, Stateful.get_bind] at hresolve
    cases hvar : e.varMap.get name with
    | some src =>
      rw [hvar] at hresolve
      cases hresolve
      exact ⟨[], by rw [List.append_nil]; exact hlayout, rfl, List.mem_append_left _ (hlayout.vars name _ hvar)⟩
    | none =>
      rw [hvar] at hresolve
      have hinput : Lays [] [] (do
          let id ← pushNode .input [⟨"name", .string name⟩]
          setVar name id
          pure id) fun id added => id ∈ added := by
        refine Lays.bind (lays_pushNode _ _) fun id added hadded => ?_
        have hid : id ∈ [] ++ added := by rw [hadded]; simp
        exact Lays.andThen (lays_setVar hid) fun _ => Lays.pure (List.mem_append_left [] hid)
      obtain ⟨added, hlayout', hmeta, hid⟩ :=
        hinput e order opened id e' hlayout (List.nil_sublist _) (List.nil_subset _) hresolve
      exact ⟨added, hlayout', hmeta, List.mem_append_right _ hid⟩
  obtain ⟨added, hlayout', hmeta, hid⟩ := hplaced
  obtain ⟨more, hlayout'', hmeta', hpost⟩ := hf id added e' (order ++ added) opened a e'' hlayout'
    (List.singleton_sublist.2 hid) hopens hfe
  exact ⟨added ++ more, by rw [← List.append_assoc]; exact hlayout'', hmeta'.trans hmeta, hpost⟩

/-- The first and the last node of a statement are among those it made. -/
def Ends (ids : Text × Text) (added : List Text) : Prop := ids.1 ∈ added ∧ ids.2 ∈ added

theorem lays_ends {id : Text} {before : List Text} (h : id ∈ before) :
    Lays known opens (pure (id, id)) fun ids added => Ends ids (before ++ added) :=
  Lays.pure ⟨List.mem_append_left _ h, List.mem_append_left _ h⟩

/-- A statement that only makes one node. -/
theorem lays_single {x : Transformer Text} (hx : Lays known opens x fun id added => id ∈ added) :
    Lays known opens (x >>= fun id => pure (id, id)) Ends :=
  Lays.bind hx fun _ _ hid => lays_ends hid

theorem lays_refused (msg : Text) : Lays known opens (error msg >>= fun _ => noNodes) Ends :=
  Lays.andThen (lays_error msg) fun _ => lays_noNodes

theorem lays_node (op : Opcode) (args : List Arg) : Lays known opens (pushNode op args) fun id added => id ∈ added :=
  (lays_pushNode op args).mono (List.Sublist.refl _) (List.Subset.refl _) fun id added h => by rw [h]; simp

theorem lays_fresh : Lays known opens genId fun id added => id ∈ added :=
  lays_genId.mono (List.Sublist.refl _) (List.Subset.refl _) fun id added h => by rw [h]; simp

end Parts

mutual

theorem lays_transformStmt {known opens : List Text} : ∀ s : Stmt, Lays known opens (transformStmt s) Ends
  | .assign targets value => by
    rw [transformStmt.eq_def]
    refine Lays.andThen lays_checkErrors fun _ => ?_
    split
    · refine Lays.bind (lays_transformExprToNode value) fun id added hid => ?_
      refine Lays.andThen (lays_addOutput _ _) fun _ => ?_
      refine Lays.andThen (lays_setVar (List.mem_append_right _ hid)) fun _ => lays_ends hid
    · exact lays_refused _
    · exact lays_refused _
  | .annAssign target _ value => by
    rw [transformStmt]
    refine Lays.andThen lays_checkErrors fun _ => ?_
    cases nameOf target with
    | none => exact lays_refused _
    | some name =>
      cases value with
      | none =>
        refine Lays.bind (lays_node _ _) fun id added hid => ?_
        exact Lays.andThen (lays_setVar (List.mem_append_right _ hid)) fun _ => lays_ends hid
      | some v =>
        refine Lays.bind (lays_transformExprToNode v) fun id added hid => ?_
        exact Lays.andThen (lays_setVar (List.mem_append_right _ hid)) fun _ => lays_ends hid
  | .augAssign target op value => by
    rw [transformStmt]
    refine Lays.andThen lays_checkErrors fun _ => ?_
    cases nameOf target with
    | none => exact lays_refused _
    | some name =>
      refine lays_resolveVar fun targetId before => ?_
      refine Lays.bind (lays_transformExprToNode value) fun rhs added hrhs => ?_
      refine Lays.bind (lays_node _ _) fun id more hid => ?_
      have htarget : targetId ∈ [targetId] ++ added := List.mem_append_left _ (List.mem_singleton_self _)
      refine Lays.andThen (lays_addEdge (Or.inl (before_append htarget hid))) fun _ => ?_
      refine Lays.andThen (lays_addEdge (Or.inl (before_append (List.mem_append_right _ hrhs) hid))) fun _ => ?_
      refine Lays.andThen (lays_setVar (List.mem_append_right _ hid)) fun _ => Lays.pure ?_
      simp [Ends, hid]
  | .expr value => by
    rw [transformStmt]
    exact Lays.andThen lays_checkErrors fun _ => lays_single (lays_transformExprToNode value)
  | .return value => by
    rw [transformStmt.eq_def]
    refine Lays.andThen lays_checkErrors fun _ => ?_
    cases value with
    | none => exact lays_single (lays_node _ _)
    | some v =>
      refine Lays.bind (lays_transformExprToNode v) fun valId added hval => ?_
      refine Lays.bind (lays_node _ _) fun id more hid => ?_
      refine Lays.andThen (lays_addEdge (Or.inl (before_append (List.mem_append_right _ hval) hid))) fun _ => ?_
      exact Lays.pure (by simp [Ends, hval, hid])
  | .if test body orelse => by
    rw [transformStmt]
    refine Lays.andThen lays_checkErrors fun _ => ?_
    refine Lays.bind (lays_transformExprToNode test) fun condId added hcond => ?_
    refine Lays.bind (lays_node _ _) fun decide more hdecide => ?_
    refine Lays.andThen (lays_addEdge (Or.inl (before_append (List.mem_append_right _ hcond) hdecide))) fun _ => ?_
    refine Lays.get_bind fun _ => ?_
    refine Lays.bind (lays_inside _ (lays_transformBlock (List.nil_subset _) (Block.Among.empty []) .unchained body))
      fun b inBody hb => ?_
    refine Lays.andThen (lays_newVars _) fun _ => ?_
    refine Lays.andThen (lays_gateBranch _ hb fun id hid => before_append (List.mem_append_right _ hdecide) hid)
      fun _ => ?_
    refine Lays.get_bind fun _ => ?_
    refine Lays.bind (lays_inside _ (lays_transformBlock (List.nil_subset _) (Block.Among.empty []) .unchained orelse))
      fun b' inOrelse hb' => ?_
    refine Lays.andThen (lays_newVars _) fun _ => ?_
    have hbefore : decide ∈ known ++ added ++ more ++ inBody :=
      List.mem_append_left _ (List.mem_append_right _ hdecide)
    refine Lays.andThen (lays_gateBranch _ hb' fun id hid => before_append hbefore hid) fun _ => ?_
    refine (lays_closeIf body orelse _ (List.mem_append_left _ hbefore)
      (hb.mono fun id hid => List.mem_append_left _ (List.mem_append_right _ hid))
      (hb'.mono fun id hid => List.mem_append_right _ hid)).mono (List.Sublist.refl _) (List.Subset.refl _) ?_
    intro ids rest h
    rcases h.2 with hlast | hlast
    · simp [Ends, h.1, hlast, hdecide]
    · simp [Ends, h.1, hdecide, hlast]
  | .for target iter body _ => by
    rw [transformStmt]
    refine Lays.andThen lays_checkErrors fun _ => ?_
    refine Lays.bind (lays_transformExprToNode iter) fun iterId added hiter => ?_
    cases nameOf target with
    | none =>
      exact (lays_refused _).mono (List.Sublist.refl _) (List.Subset.refl _) fun ids more h =>
        ⟨List.mem_append_right _ h.1, List.mem_append_right _ h.2⟩
    | some name =>
      refine Lays.bind (lays_node _ _) fun loop more hloop => ?_
      refine Lays.andThen (lays_addEdge (Or.inl (before_append (List.mem_append_right _ hiter) hloop))) fun _ => ?_
      refine Lays.andThen (lays_setVar (List.mem_append_right _ hloop)) fun _ => ?_
      refine Lays.bind (lays_inside _ (lays_transformBlock (List.nil_subset _) (Block.Among.empty []) .control body))
        fun b inBody hb => ?_
      have hend : Ends (loop, loop) (added ++ (more ++ (inBody ++ []))) := by simp [Ends, hloop]
      cases hfirst : b.first with
      | none => exact Lays.pure hend
      | some first =>
        have hin : first ∈ inBody := hb.first first hfirst
        exact Lays.andThen (lays_addEdge (Or.inl (before_append (List.mem_append_right _ hloop) hin)))
          fun _ => Lays.pure hend
  | .with items body => by
    rw [transformStmt.eq_def]
    refine Lays.andThen lays_checkErrors fun _ => ?_
    split
    · refine Lays.ite ?_ (Lays.ite ?_ (lays_refused _))
      · refine Lays.bind (lays_node _ _) fun par added hpar => ?_
        refine Lays.bind (lays_transformThreads (List.mem_append_right _ hpar) 0 body) fun _ more _ => ?_
        exact Lays.pure (by simp [Ends, hpar])
      · refine Lays.within (fun _ => rfl) (fun _ => rfl) (fun _ => rfl) (fun _ => rfl) (fun _ => rfl) fun e => ?_
        refine Lays.bind (lays_transformBlock (List.nil_subset _) (Block.Among.empty []) .data body)
          fun b added hb => ?_
        refine Lays.andThen
          (Lays.modify (fun _ => rfl) (fun _ => rfl) (fun _ => rfl) (fun _ => rfl) fun _ => rfl) fun _ => ?_
        refine Lays.bind lays_fresh fun fallback more hfallback => Lays.pure ?_
        rw [List.append_nil]
        exact hb.getD hfallback
    · exact lays_refused _
  | .match subject cases => by
    rw [transformStmt]
    refine Lays.andThen lays_checkErrors fun _ => ?_
    refine Lays.bind (lays_transformExprToNode subject) fun subjectId added hsubject => ?_
    refine Lays.bind (lays_node _ _) fun switch more hswitch => ?_
    refine Lays.andThen (lays_addEdge (Or.inl (before_append (List.mem_append_right _ hsubject) hswitch))) fun _ => ?_
    refine Lays.bind (lays_transformCases (List.mem_append_right _ hswitch) 0 false cases) fun _ rest _ => ?_
    exact Lays.pure (by simp [Ends, hswitch])
  | .assert test _ => by
    rw [transformStmt]
    refine Lays.andThen lays_checkErrors fun _ => ?_
    refine Lays.bind (lays_transformExprToNode test) fun testId added htest => ?_
    refine Lays.bind (lays_node _ _) fun decide more hdecide => ?_
    refine Lays.andThen (lays_addEdge (Or.inl (before_append (List.mem_append_right _ htest) hdecide))) fun _ => ?_
    exact Lays.pure (by simp [Ends, hdecide])
  | .pass => by
    rw [transformStmt]
    exact Lays.andThen lays_checkErrors fun _ => lays_single lays_fresh
  | .break | .continue | .raise .. => by
    rw [transformStmt]
    exact Lays.andThen lays_checkErrors fun _ => lays_single (lays_node _ _)
  | .functionDef .. | .asyncFunctionDef .. | .classDef .. | .delete .. | .typeAlias ..
  | .asyncFor .. | .while .. | .asyncWith .. | .try .. | .tryStar .. | .import .. | .importFrom ..
  | .global .. | .nonlocal .. => by
    rw [transformStmt]
    exact Lays.andThen lays_checkErrors fun _ => Lays.andThen (lays_error _) fun _ => lays_single lays_fresh

theorem lays_transformBlock {known opens mine : List Text} (hmine : mine ⊆ known) {b : Block} (hb : b.Among mine)
    (chain : Chain) : ∀ ss : List Stmt,
    Lays known opens (transformBlock chain b ss) fun b' added => b'.Among (mine ++ added)
  | [] => by
    rw [transformBlock]
    exact Lays.pure (by rw [List.append_nil]; exact hb)
  | s :: ss => by
    rw [transformBlock]
    refine Lays.bind (lays_transformStmt s) fun ids added hends => ?_
    refine Lays.andThen (lays_chainTo chain fun prev hprev =>
      before_append (hmine (hb.last prev hprev)) hends.1) fun _ => ?_
    have hmine' : mine ++ added ⊆ known ++ added := by
      intro id hid
      exact List.mem_append.2 ((List.mem_append.1 hid).imp_left fun h => hmine h)
    refine (lays_transformBlock hmine' (hb.next _ hends.1 hends.2) chain ss).mono (List.Sublist.refl _)
      (List.Subset.refl _) fun b' more h => ?_
    rw [← List.append_assoc]
    exact h

theorem lays_transformThreads {known opens : List Text} {par : Text} (hpar : par ∈ known) :
    ∀ (bid : Nat) (ss : List Stmt), Lays known opens (transformThreads par bid ss) fun _ _ => True
  | _, [] => Lays.pure trivial
  | bid, s :: ss => by
    rw [transformThreads]
    refine Lays.within (fun _ => rfl) (fun _ => rfl) (fun _ => rfl) (fun _ => rfl) (fun _ => rfl) fun e => ?_
    refine Lays.bind (lays_inside _ (lays_transformStmt s)) fun ids added hends => ?_
    refine Lays.andThen
      (Lays.modify (fun _ => rfl) (fun _ => rfl) (fun _ => rfl) (fun _ => rfl) fun _ => rfl) fun _ => ?_
    refine Lays.andThen (lays_addEdge (Or.inl (before_append hpar hends.1))) fun _ => ?_
    exact lays_transformThreads (List.mem_append_left _ hpar) (bid + 1) ss

theorem lays_transformCases {known opens : List Text} {switch : Text} (hswitch : switch ∈ known) :
    ∀ (index : Nat) (hasDefault : Bool) (cases : List MatchCase),
    Lays known opens (transformCases switch index hasDefault cases) fun _ _ => True
  | _, _, [] => Lays.pure trivial
  | index, hasDefault, .mk pattern _ body :: cases => by
    rw [transformCases]
    split
    · exact Lays.andThen (lays_error _) fun _ => lays_transformCases hswitch _ _ cases
    · next condition hcondition =>
      refine Lays.ite (Lays.andThen (lays_error _) fun _ => ?_) ?_
      all_goals
        refine Lays.bind (lays_inside _ (lays_transformCaseBody none body)) fun last added hlast => ?_
        cases hlast' : last with
        | none => exact lays_transformCases (List.mem_append_left _ hswitch) _ _ cases
        | some first =>
          have hfirst : first ∈ added := (hlast first hlast').resolve_left nofun
          exact Lays.andThen (lays_pushSwitchEdge (before_append hswitch hfirst) condition)
            fun _ => lays_transformCases (List.mem_append_left _ hswitch) _ _ cases

theorem lays_transformCaseBody {known opens : List Text} : ∀ (last : Option Text) (ss : List Stmt),
    Lays known opens (transformCaseBody last ss) fun last' added =>
      ∀ id, last' = some id → last = some id ∨ id ∈ added
  | _, [] => Lays.pure fun _ h => Or.inl h
  | last, s :: ss => by
    rw [transformCaseBody]
    refine Lays.bind (lays_transformStmt s) fun ids added hends => ?_
    refine (lays_transformCaseBody (some ids.1) ss).mono (List.Sublist.refl _) (List.Subset.refl _) ?_
    intro last' more h id hid
    rcases h id hid with heq | hin
    · cases heq
      exact Or.inr (List.mem_append_left _ hends.1)
    · exact Or.inr (List.mem_append_right _ hin)

end

/-! ### The module -/

theorem lays_pushInputs {known opens : List Text} (as : List ArgDef) :
    Lays known opens (pushInputs as) fun _ _ => True := by
  induction as generalizing known with
  | nil => exact Lays.pure trivial
  | cons a as ih =>
    refine Lays.bind (lays_node _ _) fun id added hid => ?_
    exact Lays.andThen (lays_setVar (List.mem_append_right _ hid)) fun _ => ih

/-- The module's own statement is the first `META`, or none. -/
theorem scanMeta_cons {s : Stmt} {ss : List Stmt} {e e' : TransformEngine} {u : Unit}
    (h : scanMeta (s :: ss) e = .ok u e') :
    (∃ value json, s = .expr value ∧ extractMeta value = some json ∧ e.metaJson = [] ∧
      scanMeta ss { e with metaJson := json } = .ok u e') ∨
    (∀ value, s = .expr value → extractMeta value = none) ∧ scanMeta ss e = .ok u e' := by
  cases s with
  | expr value =>
    rw [scanMeta] at h
    cases hjson : extractMeta value with
    | none =>
      rw [hjson] at h
      refine Or.inr ⟨?_, h⟩
      intro value' heq
      cases heq
      exact hjson
    | some json =>
      rw [hjson] at h
      obtain ⟨e₁, t, hget, hrest⟩ := bind_ok h
      cases hget
      by_cases hempty : e.metaJson = []
      · rw [if_neg (not_not.2 hempty)] at hrest
        exact Or.inl ⟨value, json, rfl, hjson, hempty, hrest⟩
      · rw [if_pos hempty] at hrest
        cases hrest
  | _ => exact Or.inr ⟨nofun, h⟩

/-- Only the metadata changes while the module's own statements are read. -/
theorem scanMeta_layout {order opened : List Text} (ss : List Stmt) {e e' : TransformEngine} {u : Unit}
    (h : Layout e order opened) (hx : scanMeta ss e = .ok u e') : Layout e' order opened := by
  induction ss generalizing e with
  | nil =>
    cases hx
    exact h
  | cons s ss ih =>
    rcases scanMeta_cons hx with ⟨value, json, -, -, -, hrest⟩ | ⟨-, hrest⟩
    · have hlayout : Layout { e with metaJson := json } order opened := h.same rfl rfl rfl rfl
      exact ih hlayout hrest
    · exact ih h hrest

theorem transformModule_layout {m : Ast.Module} {u : Unit} {e' : TransformEngine}
    (h : transformModule m TransformEngine.new = .ok u e') : ∃ e order, scanMeta m.body TransformEngine.new = .ok () e ∧
      Layout e' order [] ∧ e'.metaJson = e.metaJson := by
  obtain ⟨_, e, hscan, hrest⟩ := bind_ok h
  have hlayout := scanMeta_layout m.body Layout.empty hscan
  cases hgraph : graphFunction m.body with
  | none =>
    rw [hgraph] at hrest
    cases hrest
  | some f =>
    rw [hgraph] at hrest
    have hlays : Lays [] [] (do
        pushInputs f.1.args
        pushInputs f.1.posonlyargs
        let _ ← transformBlock .control Block.empty f.2) fun _ _ => True := by
      refine Lays.bind (lays_pushInputs _) fun _ added _ => ?_
      refine Lays.bind (lays_pushInputs _) fun _ more _ => ?_
      refine Lays.bind (lays_transformBlock (List.nil_subset _) (Block.Among.empty []) _ _) fun _ rest _ => ?_
      exact Lays.pure trivial
    obtain ⟨added, hlayout', hmeta, -⟩ :=
      hlays e [] [] u e' hlayout (List.Sublist.refl _) (List.Subset.refl _) hrest
    exact ⟨e, added, hscan, hlayout', hmeta⟩

end Transformer

theorem transform_ok {m : Ast.Module} {p : ExecutionPlan} (h : transform m = .ok p) :
    sanitize m = .ok () ∧ ∃ e, Transformer.transformModule m TransformEngine.new = .ok () e ∧ p = e.build := by
  simp only [transform] at h
  cases hs : sanitize m with
  | error errors =>
    rw [hs] at h
    cases h
  | ok u =>
    cases he : runTransform m with
    | error errors =>
      rw [hs, he] at h
      cases h
    | ok e =>
      rw [hs, he] at h
      refine ⟨rfl, e, ?_, (Except.ok.inj h).symm⟩
      rw [runTransform] at he
      split at he
      · cases he
        assumption
      · cases he

/-- For every accepted program, no id is used twice and no path of edges leads back to where it began. -/
theorem transform_acyclic {m : Ast.Module} {p : ExecutionPlan} (h : transform m = .ok p) :
    (p.nodes.map Node.id).Nodup ∧ Kahn.Acyclic (p.edges.map fun edge => (edge.fromId, edge.toId)) := by
  obtain ⟨-, e, htransform, rfl⟩ := transform_ok h
  obtain ⟨-, order, -, hlayout, -⟩ := Transformer.transformModule_layout htransform
  have hnodup : order.Nodup := by
    have h := hlayout.nodup
    rw [List.append_nil] at h
    exact h
  refine ⟨hlayout.ids, Kahn.acyclic_of_sublist hnodup fun pair hpair => ?_⟩
  obtain ⟨edge, hedge, rfl⟩ := List.mem_map.1 hpair
  rcases hlayout.edges edge hedge with hin | ⟨-, hopen⟩
  · exact hin
  · cases hopen

open Build Ast in
/-- A program with every kind of block, one inside another, that writes `y` again and again. -/
def nestedBlocks : Module := graph ["x"]
  [assign "y" (call "tool:a" [("p", .call (.name "len") [name "x"] [])]),
   .if (name "x")
     [forIn "i" (range [int 3]) [.augAssign (name "y") .add (name "i"), .if (name "y") [assign "y" (int 1)] []]]
     [.if (name "y") [ret (name "y")] [assign "y" (int 2)]],
   .match (name "y") [.mk (.matchValue (int 1)) none [assign "y" (int 3)], .mk (.matchAs none none) none [.pass]],
   parallel [.expr (call "tool:b" []), group "g" [.expr (call "tool:c" []), .expr (call "tool:d" [])]],
   ret (name "y")]

theorem transform_acyclic_nestedBlocks : ∃ p, transform nestedBlocks = .ok p ∧ (p.nodes.map Node.id).Nodup ∧
    Kahn.Acyclic (p.edges.map fun edge => (edge.fromId, edge.toId)) := by
  have hok : (transform nestedBlocks).isOk := by decide +kernel
  cases h : transform nestedBlocks with
  | error errors =>
    rw [h] at hok
    cases hok
  | ok p => exact ⟨p, rfl, transform_acyclic h⟩

end Tinypipe
