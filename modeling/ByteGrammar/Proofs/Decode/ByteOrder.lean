import ByteGrammar.Proofs.Decode.ScriptOrder
import ByteGrammar.Proofs.Decode.Shape
import ByteGrammar.Proofs.Resolved.Members
import ByteGrammar.Script.Command

/-!
# What the dynamic byte order goes by

Where the text of a script decides which order it sets, the dynamic order is the one that was set
last by a script that was run. Scripts are run by the nodes of the tree and in candidates that were
given up, and giving a candidate up does not take its order back. Where no candidate that was given
up has left another order than it found, the order of every node is the one that was set last by
the nodes before it in the tree.
-/

set_option autoImplicit false

namespace ByteGrammar

open Stepwise DecodeM Source Course Value

variable {μ α β : Type}

def Kind.isOrdered : Kind → Bool
  | .number _ | .offset _ => true
  | _ => false

def Resolved.Dynamic (g : Resolved) (id : ElementId) : Prop :=
  (g.kind id).isOrdered ∧ (g.attributesOf id).endian = .dynamic

/-- What a decode comes by: the nodes of its tree and, between them, the candidates that it gives
up. -/
inductive Mark where
  | node (v : Value)
  /-- A candidate, the acts in it, and the dynamic orders in which it was begun and given up. -/
  | abandoned (id : ElementId) (inside : List Act) (before now : ByteOrder)

namespace Mark

def node? : Mark → Option Value
  | node v => some v
  | abandoned .. => none

def acts : Mark → List Act
  | node _ => []
  | abandoned id inside before now => inside ++ [.giveUp id before now]

def set (g : Resolved) (sets : String → Option ByteOrder) : Mark → List ByteOrder
  | node v => (g.setBy sets v.element).toList
  | abandoned _ inside _ _ => inside.filterMap (Act.setBy sets)

/-- The mark goes by the order `o` that is met there: a node is read in it, a candidate begins
with it and leaves what was set last. -/
def GoesBy (g : Resolved) (sets : String → Option ByteOrder) (o : ByteOrder) : Mark → Prop
  | node v => g.Dynamic v.element → v.order = some o
  | abandoned _ inside before now =>
    before = o ∧ now = lastOrder o (inside.filterMap (Act.setBy sets))

end Mark

def Ordered (g : Resolved) (sets : String → Option ByteOrder) : ByteOrder → List Mark → Prop
  | _, [] => True
  | o, mark :: rest => mark.GoesBy g sets o ∧ Ordered g sets (lastOrder o (mark.set g sets)) rest

structure Chronicle (g : Resolved) (sets : String → Option ByteOrder) (o : ByteOrder)
    (vs : List Value) (acts : List Act) (now : ByteOrder) (marks : List Mark) : Prop where
  nodes : marks.filterMap Mark.node? = vs.flatMap preorder
  acts : (marks.flatMap Mark.acts).Sublist acts
  ordered : Ordered g sets o marks
  leaves : now = lastOrder o (marks.flatMap (Mark.set g sets))

def Told (g : Resolved) (sets : String → Option ByteOrder) (o : ByteOrder) (vs : List Value)
    (acts : List Act) (now : ByteOrder) : Prop := ∃ marks, Chronicle g sets o vs acts now marks

def Undisturbed (acts : List Act) : Prop :=
  ∀ id before now, Act.giveUp id before now ∈ acts → now = before

section
variable {g : Resolved} {sets : String → Option ByteOrder} {o : ByteOrder}

theorem ordered_append {first rest : List Mark} :
    Ordered g sets o (first ++ rest) ↔ Ordered g sets o first ∧
      Ordered g sets (lastOrder o (first.flatMap (Mark.set g sets))) rest := by
  induction first generalizing o with
  | nil => simp [Ordered]
  | cons mark first ih =>
    simp only [List.cons_append, Ordered, ih, List.flatMap_cons, last_order_append, and_assoc]

theorem told_nil (acts : List Act) : Told g sets o [] acts o :=
  ⟨[],rfl,List.nil_sublist _,trivial,rfl⟩

theorem Told.among {vs : List Value} {acts more : List Act} {now : ByteOrder}
    (h : Told g sets o vs acts now) (hacts : acts.Sublist more) : Told g sets o vs more now := by
  obtain ⟨marks,hm⟩ := h
  exact ⟨marks,hm.nodes,hm.acts.trans hacts,hm.ordered,hm.leaves⟩

theorem Told.append {vs ws : List Value} {first rest : List Act} {between now : ByteOrder}
    (h : Told g sets o vs first between) (k : Told g sets between ws rest now) :
    Told g sets o (vs ++ ws) (first ++ rest) now := by
  obtain ⟨marks,hm⟩ := h
  obtain ⟨more,km⟩ := k
  have hbetween := hm.leaves
  subst hbetween
  refine ⟨marks ++ more,?_,?_,ordered_append.mpr ⟨hm.ordered,km.ordered⟩,?_⟩
  · rw [List.filterMap_append, hm.nodes, km.nodes, List.flatMap_append]
  · rw [List.flatMap_append]
    exact hm.acts.append km.acts
  · rw [km.leaves, List.flatMap_append, last_order_append]

theorem told_abandoned (id : ElementId) {inside : List Act} {now : ByteOrder}
    (h : now = lastOrder o (inside.filterMap (Act.setBy sets))) :
    Told g sets o [] (inside ++ [.giveUp id o now]) now := by
  refine ⟨[.abandoned id inside o now],rfl,?_,⟨⟨rfl,h⟩,trivial⟩,?_⟩
  · simp only [List.flatMap_singleton, Mark.acts]
    exact List.Sublist.refl _
  · simpa only [List.flatMap_singleton, Mark.set] using h

theorem told_node {v : Value} {acts : List Act} {now : ByteOrder}
    (hv : g.Dynamic v.element → v.order = some o)
    (h : Told g sets ((g.setBy sets v.element).getD o) v.children acts now) :
    Told g sets o [v] acts now := by
  obtain ⟨marks,hm⟩ := h
  refine ⟨.node v :: marks,?_,hm.acts,⟨hv,?_⟩,?_⟩
  · rw [List.flatMap_singleton, preorder_eq, ← hm.nodes]
    rfl
  · rw [Mark.set, last_order_option]
    exact hm.ordered
  · rw [hm.leaves, List.flatMap_cons, last_order_append, Mark.set, last_order_option]

/-- Where nothing disturbs the order, the nodes by themselves go by it. -/
theorem Chronicle.nodes_ordered {vs : List Value} {acts : List Act} {now : ByteOrder}
    {marks : List Mark} (h : Chronicle g sets o vs acts now marks) (hu : Undisturbed acts) :
    Ordered g sets o ((vs.flatMap preorder).map .node) := by
  rw [← h.nodes]
  have hmarks : Undisturbed (marks.flatMap Mark.acts) :=
    fun id before now hmem => hu id before now (h.acts.subset hmem)
  have hordered := h.ordered
  clear h hu
  induction marks generalizing o with
  | nil => trivial
  | cons mark marks ih =>
    obtain ⟨hmark,hrest⟩ := hordered
    have hlater : Undisturbed (marks.flatMap Mark.acts) :=
      fun id before now hmem => hmarks id before now (List.mem_append_right _ hmem)
    cases mark with
    | node v => exact ⟨hmark,ih hlater hrest⟩
    | abandoned id inside before now =>
      obtain ⟨rfl,rfl⟩ := hmark
      have hsame := hmarks id before _ (List.mem_append_left _ (List.mem_append_right _
        List.mem_cons_self))
      rw [Mark.set, hsame] at hrest
      exact ih hlater hrest

theorem ordered_node {before after : List Value} {w : Value}
    (h : Ordered g sets o ((before ++ w :: after).map .node)) (hw : g.Dynamic w.element) :
    w.order = some (lastOrder o (before.filterMap fun u => g.setBy sets u.element)) := by
  rw [List.map_append] at h
  have hset : (before.map Mark.node).flatMap (Mark.set g sets) =
      before.filterMap fun u => g.setBy sets u.element := by
    rw [List.flatMap_map, List.filterMap_eq_flatMap_toList]
    rfl
  obtain ⟨-,hlast,-⟩ := ordered_append.mp h
  rw [hset] at hlast
  exact hlast hw

end

def Kind.isNeutral : Kind → Bool
  | .number _ | .offset _ | .custom _ | .script _ | .scriptElement _ => false
  | _ => true

def NodeTold (g : Resolved) (sets : String → Option ByteOrder) (o : ByteOrder) (v : Value)
    (acts : List Act) (now : ByteOrder) : Prop :=
  (g.Dynamic v.element → v.order = some o) ∧
    Told g sets ((g.setBy sets v.element).getD o) v.children acts now

section
variable {setup : Setup μ} {sets : String → Option ByteOrder}

theorem neutral_static {g : Resolved} {id : ElementId} (h : (g.kind id).isNeutral) :
    ¬g.Dynamic id := by
  rintro ⟨hkind,-⟩
  cases hk : g.kind id <;> simp [hk, Kind.isNeutral, Kind.isOrdered] at h hkind

theorem neutral_set {g : Resolved} {id : ElementId} (h : (g.kind id).isNeutral) :
    g.setBy sets id = none := by
  refine unscripted_set ?_
  cases hk : g.kind id <;> simp [hk, Kind.isNeutral, Kind.isScripted] at h ⊢

theorem struct_neutral {kind : Kind} (h : kind.isStruct) : kind.isNeutral := by
  cases kind <;> simp [Kind.isStruct, Kind.isNeutral] at h ⊢

theorem neutral_told {g : Resolved} {o now : ByteOrder} {v : Value} {acts : List Act}
    (hv : (g.kind v.element).isNeutral) (h : Told g sets o v.children acts now) :
    NodeTold g sets o v acts now := by
  refine ⟨fun hd => absurd hd (neutral_static hv),?_⟩
  rw [neutral_set hv]
  exact h

section
variable {frame : Frame} {frames : List Frame} {id : ElementId} {declared : Option Nat}
  {ρ υ : State μ} {v : Value}

theorem read_number_order (hd : (setup.grammar.attributesOf id).endian = .dynamic)
    (h : readNumber setup frame id declared ρ = (.ok v,υ)) : v.order = some ρ.order := by
  obtain ⟨n,_,hn,h1⟩ := bind_ok.mp h
  obtain ⟨-,rfl⟩ := integer_length_ok hn
  obtain ⟨start,_,hc,h2⟩ := bind_ok.mp h1
  obtain ⟨rfl,-,-⟩ := claim_ok hc
  obtain ⟨bytes,u,ht,h3⟩ := bind_ok.mp h2
  have hsame := ((take_keeps (R := State.Steady) n).of_run ht).order
  obtain ⟨order,_,ho,h4⟩ := bind_ok.mp h3
  rw [order_of_run, hd] at ho
  cases ho
  rcases hm : MachineInt.ofBytes? u.order (setup.grammar.attributesOf id).signed bytes
    with _ | i <;> rw [hm] at h4
  · cases h4
  · obtain ⟨-,matched,rfl⟩ := match_fixed_ok h4
    exact congrArg some hsame

theorem read_offset_order (hd : (setup.grammar.attributesOf id).endian = .dynamic)
    (h : readOffset setup frame id declared ρ = (.ok v,υ)) : v.order = some ρ.order := by
  obtain ⟨n,_,hn,h1⟩ := bind_ok.mp h
  obtain ⟨-,rfl⟩ := integer_length_ok hn
  obtain ⟨start,_,hc,h2⟩ := bind_ok.mp h1
  obtain ⟨rfl,-,-⟩ := claim_ok hc
  obtain ⟨_,_,hs,h3⟩ := bind_ok.mp h2
  obtain rfl := seek_ok hs
  obtain ⟨order,_,ho,h4⟩ := bind_ok.mp h3
  rw [order_of_run, hd] at ho
  cases ho
  obtain ⟨rfl,-⟩ := pure_ok.mp h4
  rfl

theorem leaf_order (hs : setup.SetBy sets) {attempt : ElementId → DecodeM μ Value}
    (h : readKind setup attempt frame frames id declared ρ = (.ok v,υ))
    (simple : (setup.grammar.kind id).isLeaf) :
    (setup.grammar.Dynamic id → v.order = some ρ.order) ∧
      υ.order = (setup.grammar.setBy sets id).getD ρ.order := by
  have hstatic : (setup.grammar.kind id).isOrdered = false → setup.grammar.Dynamic id →
      v.order = some ρ.order := fun hkind hd => absurd hd.1 (Bool.eq_false_iff.mp hkind)
  have hsteady : (setup.grammar.kind id).isScripted = false → State.Steady ρ υ →
      υ.order = (setup.grammar.setBy sets id).getD ρ.order := by
    intro hkind hsame
    rw [unscripted_set hkind]
    exact hsame.order
  unfold readKind at h
  cases hkind : setup.grammar.kind id with
  | number settings =>
    rw [hkind] at h hsteady
    exact ⟨fun hd => read_number_order hd.2 h,hsteady rfl ((read_number_keeps _ _ _ _).of_run h)⟩
  | offset settings =>
    rw [hkind] at h hsteady
    exact ⟨fun hd => read_offset_order hd.2 h,hsteady rfl ((read_offset_keeps _ _ _ _).of_run h)⟩
  | text settings =>
    rw [hkind] at h hstatic hsteady
    exact ⟨hstatic rfl,hsteady rfl ((read_text_keeps _ _ _ _).of_run h)⟩
  | binary settings =>
    rw [hkind] at h hstatic hsteady
    exact ⟨hstatic rfl,hsteady rfl ((read_binary_keeps _ _ _ _).of_run h)⟩
  | custom script =>
    rw [hkind] at h hstatic
    exact ⟨hstatic rfl,read_custom_set hs ⟨_,hkind⟩ h⟩
  | script script =>
    rw [hkind] at h hstatic
    exact ⟨hstatic rfl,read_script_set hs h⟩
  | scriptElement script =>
    rw [hkind] at h hstatic
    exact ⟨hstatic rfl,read_script_set hs h⟩
  | struct | structRef | grammarRef | grammar | padding =>
    rw [hkind] at simple
    cases simple

end

theorem padding_told {g : Resolved} (hg : g.kind g.padding = .padding) {o : ByteOrder}
    {padding : List Value}
    (h : ∀ w ∈ padding, w.element = g.padding ∧ w.children = []) : Told g sets o padding [] o := by
  induction padding with
  | nil => exact told_nil []
  | cons w rest ih =>
    obtain ⟨⟨helement,hchildren⟩,hrest⟩ := List.forall_mem_cons.mp h
    have hneutral : (g.kind w.element).isNeutral := by
      rw [helement, hg]
      rfl
    have hw : NodeTold g sets o w [] o := neutral_told hneutral (hchildren ▸ told_nil [])
    exact (told_node hw.1 hw.2).append (ih hrest)

/-- The children that a search has taken are read one after the other, with the candidates between
them that it has given up. -/
theorem search_told {course : ElementId → Course μ Value}
    (hread : ∀ {id σ acts v τ}, course id σ acts (.ok v,τ) →
      Told setup.grammar sets σ.order [v] acts τ.order)
    (hsets : ∀ id, Upholds (LeavesLast sets) (course id)) {arrangement : Arrangement}
    {members : Array ElementId} {frame : Frame} {frames : List Frame} {s : Search} {σ : State μ}
    {acts first : List Act}
    {r : Except DecodeFault (Search × Bool) × State μ} {o : ByteOrder}
    (h : searchCourse setup course arrangement members frame frames s σ acts r)
    (hs : Told setup.grammar sets o s.children.toList first σ.order) :
    ∀ found, r.1 = .ok found →
      Told setup.grammar sets o found.1.children.toList (first ++ acts) r.2.order := by
  have hstep : ∀ {s σ acts first stage τ},
      stepCourse setup course arrangement members frame frames s σ acts (.ok stage,τ) →
      Told setup.grammar sets o s.children.toList first σ.order →
      Told setup.grammar sets o stage.search.children.toList (first ++ acts) τ.order := by
    intro s σ acts first stage τ hturn hs
    cases step_course_form hturn with
    | idle steady same leads =>
      rw [same stage rfl, steady.order, List.append_nil]
      exact hs
    | taken approach read =>
      rw [← approach.steady.order] at hs
      simp only [Search.Stage.search, accept_children]
      exact hs.append (hread read)
    | @refused member least υ ω τ acts fault result approach read after =>
      have hcandidate := hsets _ read (after_attempt_unbroken (unbroken_ok stage) after)
      have hafter : State.Steady ω τ := (after_attempt_holds _ _ _ _ _ _ _).of_run after
      rw [← hafter.order] at hcandidate
      have hsame : stage.search.children = s.children := by
        rcases (after_attempt_ok after).1 with ⟨rfl,-⟩ | rfl <;> rfl
      -- The candidate leaves no child, but the order it has set stays for what is read next.
      rw [← approach.steady.order] at hs
      have htold := hs.append (told_abandoned member hcandidate)
      rw [List.append_nil] at htold
      rw [hsame]
      exact htold
  induction h generalizing first with
  | @ended s σ τ acts stage found last leads =>
    intro found' hfound
    cases hfound
    cases stage with
    | searching next => cases leads
    | ended last' dry =>
      cases leads
      exact hstep last hs
  | failed last => exact nofun
  | @on s s' σ υ acts more stage r first' leads rest ih =>
    intro found hfound
    cases stage with
    | ended last dry => cases leads
    | searching next =>
      cases leads
      rw [← List.append_assoc]
      exact ih (hstep first' hs) found hfound

section
variable (hg : setup.grammar.Linked) (hs : setup.SetBy sets)

include hg hs

theorem kind_told {room : Nat} {frame : Frame} {frames : List Frame}
    (ih : ∀ {id σ acts v τ}, elementCourse setup room frames id σ acts (.ok v,τ) →
      NodeTold setup.grammar sets σ.order v acts τ.order)
    {id : ElementId} {declared : Option Nat} {ρ υ : State μ} {acts : List Act} {v : Value}
    (h : kindCourse setup (elementCourse setup room frames) frame frames id declared ρ acts
      (.ok v,υ)) :
    NodeTold setup.grammar sets ρ.order v acts υ.order := by
  generalize hr : ((.ok v,υ) : Except DecodeFault Value × State μ) = r at h
  cases kind_course_form h with
  | barred | unfound => cases hr
  | leaf simple plain run kept =>
    subst hr
    have hrun := run (readElement setup room frames)
    obtain ⟨horder,hset⟩ := leaf_order hs hrun simple
    cases read_kind_ok (read_element_reader setup room frames) hrun with
    | leaf simple read kept =>
      rw [NodeTold, read.element, read.children, hset]
      exact ⟨horder,told_nil acts⟩
    | reference kind linked read =>
      rw [kind] at simple
      cases simple
    | struct kind search gathered =>
      rw [kind] at simple
      cases simple
  | @reference link target acts result υ' kind linked read =>
    cases result with
    | error fault => cases hr
    | ok w =>
      cases hr
      have hplaced := (read_element_placed hg
        ((element_course_tracks setup room frames target ρ).sound read).symm).1
      have hw : (setup.grammar.kind w.element).isNeutral := by
        rw [hplaced.element]
        exact struct_neutral (hg.target kind linked)
      have hid : (setup.grammar.kind id).isNeutral := by
        rw [kind]
        rfl
      have hchildren := (ih read).2
      rw [neutral_set hw] at hchildren
      exact neutral_told hid hchildren
  | @found settings acts found υ' τ result kind search finish =>
    cases hr
    obtain ⟨_,padding,-,hpadding,rfl,-⟩ := finish_struct_ok finish
    have hafter := ((finish_struct_steady _ _ _ _ _ _).of_run finish).order
    have hstruct : (setup.grammar.kind id).isNeutral := by
      rw [kind]
      rfl
    have hfound := search_told (fun read => told_node (ih read).1 (ih read).2)
      (element_sets hs room frames) search (told_nil []) found rfl
    have hall := hfound.append (padding_told hg.padding (padding_labels hpadding))
    rw [List.nil_append, List.append_nil] at hall
    rw [hafter]
    exact neutral_told hstruct hall

/-- Everything that is read goes by the order that was set last. -/
theorem element_told {room : Nat} {frames : List Frame} {id : ElementId} {σ τ : State μ}
    {acts : List Act} {v : Value} (h : elementCourse setup room frames id σ acts (.ok v,τ)) :
    NodeTold setup.grammar sets σ.order v acts τ.order := by
  induction room generalizing frames id σ acts v τ with
  | zero =>
    obtain ⟨rest,⟨-,hrest⟩,-⟩ := tell_bind.mp h
    cases hrest
  | succ room ih =>
    obtain ⟨rest,hrest,rfl⟩ := tell_bind.mp h
    cases with_course_form hrest with
    | @counted frame declared ρ υ _ acts w _ opens read order values outcome =>
      obtain rfl := outcome v rfl
      obtain ⟨hnode,htold⟩ := kind_told hg hs ih read
      have hopen := ((opening_quiet _ _ _).of_run opens).order
      rw [hopen] at hnode htold
      rw [order]
      exact ⟨hnode,htold.among ((List.sublist_append_left _ _).cons _)⟩

theorem rounds_told {length least : Nat} {most : Option Nat} {read : Array Value × Nat}
    {σ : State μ} {acts first : List Act} {r : Except DecodeFault (Array Value × Nat) × State μ}
    {o : ByteOrder} (h : roundsCourse setup length least most read σ acts r)
    (hread : Told setup.grammar sets o read.1.toList first σ.order) :
    ∀ last, r.1 = .ok last →
      Told setup.grammar sets o last.1.toList (first ++ acts) r.2.order := by
  have hround : ∀ {read σ acts first turn τ},
      roundCourse (inRootCourse setup length setup.grammar.start) setup.grammar.start least most
        length read σ acts (.ok turn,τ) →
      Told setup.grammar sets o read.1.toList first σ.order → ∀ next,
      turn = .on next ∨ turn = .ended next →
      Told setup.grammar sets o next.1.toList (first ++ acts) τ.order := by
    intro read σ acts first turn τ hturn hs' next hnext
    generalize hr : ((.ok turn,τ) : Except DecodeFault _ × State μ) = r at hturn
    cases round_course_form hturn with
    | full =>
      cases hr
      rcases hnext with hnext | hnext <;> cases hnext
      rw [List.append_nil]
      exact hs'
    | @taken v τ' acts inside attempt =>
      cases hr
      have hv := element_told hg hs attempt
      have htold := hs'.append (told_node hv.1 hv.2)
      have hnext' : next = (read.1.push v,read.2 + v.length) := by
        split at hnext <;> rcases hnext with hnext | hnext <;> cases hnext <;> rfl
      rw [hnext', Array.toList_push]
      exact htold
    | @refused acts fault ω τ' result inside attempt after =>
      cases result with
      | error fault' => cases hr
      | ok last =>
        cases hr
        have hcandidate := element_sets hs _ _ _ attempt
          (stop_after_unbroken (unbroken_ok last) after)
        have hafter : State.Steady ω τ := (stop_after_holds _ _ _ _ _).of_run after
        have hmoved : (σ.moved read.2).order = σ.order := rfl
        rw [← hafter.order, hmoved] at hcandidate
        have htold := hs'.append (told_abandoned setup.grammar.start hcandidate)
        rw [List.append_nil] at htold
        obtain ⟨children,consumed⟩ := last
        obtain ⟨rfl,rfl,-⟩ := stop_after_ok after
        rcases hnext with hnext | hnext <;> cases hnext
        exact htold
  induction h generalizing first with
  | ended last leads =>
    intro last' hlast
    cases hlast
    exact hround last hread _ (.inr leads)
  | failed last => exact nofun
  | on first' leads rest ih =>
    intro last hlast
    rw [← List.append_assoc]
    exact ih (hround first' hread _ (.inl leads)) last hlast

/-- The whole tree of a decode goes by the order that was set last. -/
theorem root_told (hroot : setup.grammar.kind Grammar.root = .grammar) {length : Nat}
    {σ τ : State μ} {acts : List Act} {v : Value}
    (h : rootCourse setup length σ acts (.ok v,τ)) :
    Told setup.grammar sets σ.order [v] acts τ.order := by
  cases root_course_form h with
  | @finished least most ρ υ ω τ acts read result hleast hmost rounds finish =>
    have hbegin : υ.order = σ.order := (((bound_quiet _ _ _ _ _).of_run hleast).trans
      ((bound_quiet _ _ _ _ _).of_run hmost)).order
    have hafter := ((finish_root_steady _ _ _).of_run finish).order
    have htold := rounds_told hg hs rounds (told_nil []) read rfl
    rw [hbegin, List.nil_append] at htold
    obtain ⟨children,consumed⟩ := read
    unfold finishRoot at finish
    dsimp only at finish
    split at finish
    · split at finish <;> cases finish
    · obtain ⟨_,_,-,h1⟩ := bind_ok.mp finish
      obtain ⟨rfl,-⟩ := pure_ok.mp h1
      have hneutral : (setup.grammar.kind Grammar.root).isNeutral := by
        rw [hroot]
        rfl
      rw [hafter]
      have hnode : NodeTold setup.grammar sets σ.order
        (Value.spanning Grammar.root 0 children.toList) acts ω.order :=
        neutral_told hneutral htold
      exact told_node hnode.1 hnode.2

end

/-- The byte orders in a tree that was read with these acts. It is read with marks between its
nodes, and each mark goes by the order that was set last before it. So where no candidate that was
given up has left another order than it found, a number or an offset in the dynamic order has the
one that was set last by the nodes before it. -/
structure FollowsOrder (setup : Setup μ) (sets : String → Option ByteOrder) (v : Value)
    (acts : List Act) (now : ByteOrder) : Prop where
  told : Told setup.grammar sets setup.options.order [v] acts now
  settled : Undisturbed acts → ∀ before w after, v.preorder = before ++ w :: after →
    setup.grammar.Dynamic w.element →
      w.order = some (lastOrder setup.options.order
        (before.filterMap fun u => setup.grammar.setBy sets u.element))

theorem Told.follows {v : Value} {acts : List Act} {now : ByteOrder}
    (h : Told setup.grammar sets setup.options.order [v] acts now) :
    FollowsOrder setup sets v acts now := by
  refine ⟨h,fun hu before w after hv hw => ?_⟩
  obtain ⟨marks,hm⟩ := h
  have hordered := hm.nodes_ordered hu
  rw [List.flatMap_singleton, hv] at hordered
  exact ordered_node hordered hw

/-- Dynamic byte orders follow the scripts that are run. Where the text of each script decides
which order it sets, a tree comes with the candidates that were given up between its nodes, and
each of its numbers and offsets in the dynamic order has the one that was set last before it, by a
node or in such a candidate. -/
theorem byte_order_follows {authored : Grammar} (hb : authored.Built)
    (hg : authored.resolve = .ok setup.grammar) (hs : setup.SetBy sets) (σ : State μ) :
    (∀ v τ, decode setup σ = (.ok v,τ) → (∃ acts, decodeCourse setup σ acts (.ok v,τ)) ∧
      ∀ acts, decodeCourse setup σ acts (.ok v,τ) →
        FollowsOrder setup sets v acts τ.order) ∧
    ∀ id offset v τ, decodeElement setup id offset σ = (.ok v,τ) →
      (∃ acts, decodeElementCourse setup id offset σ acts (.ok v,τ)) ∧
      ∀ acts, decodeElementCourse setup id offset σ acts (.ok v,τ) →
        FollowsOrder setup sets v acts τ.order := by
  have hl := Grammar.resolve_linked hg
  have hroot := (Grammar.resolve_assembled hb hg).root
  refine ⟨fun v τ hv => ⟨hv ▸ (decode_course_tracks setup σ).goes,fun acts h => ?_⟩,
    fun id offset v τ hv =>
      ⟨hv ▸ (decode_element_course_tracks setup id offset σ).goes,fun acts h => ?_⟩⟩
  · obtain ⟨result,hcourse,hresult⟩ := decode_course_form h
    obtain rfl := hresult v rfl
    exact (root_told hl hs hroot hcourse).follows
  · have hv := element_told hl hs (decode_element_course_form h)
    exact (told_node hv.1 hv.2).follows

end

def bigOnly (text : String) : Option ByteOrder := if text = "big" then some .big else none

theorem commands_set_by {g : Resolved} {encodings : Text.Encodings}
    (h : (List.range g.grammar.size).all fun id => (g.script? id).all (·.text == "big")) :
    Setup.SetBy { grammar := g, encodings, runtime := some Command.runtime } bigOnly := by
  intro id script hscript view memory source order memory' source' order' hrun
  have hid : id < g.grammar.size := by
    refine Nat.lt_of_not_le fun hout => ?_
    have hkind : g.kind id = .grammar := by
      rw [Resolved.kind, Resolved.element, Grammar.element_outside _ _ hout]
      rfl
    have hnone : g.script? id = none := by
      simp [Resolved.script?, Resolved.scriptHolder?, hkind]
    cases hscript.symm.trans hnone
  have htext := List.all_eq_true.mp h id (List.mem_range.mpr hid)
  have hscript' : g.script? id = some script := hscript
  rw [hscript', Option.all_some, beq_iff_eq] at htext
  have hcommands : Command.ofScript "big" = [.setOrder .big] := by decide +kernel
  simp only [Command.runtime, htext, hcommands, Command.performAll, Command.perform] at hrun
  cases hrun
  rw [htext]
  rfl

def tagged (tag : Int) : Grammar :=
  let n := ((Element.number "n").withLength (.literal 2)).withEndian .dynamic
  let g := ((Grammar.new "choice").add (Element.script "Big" "cmd" "big")).add
    (Element.struct "file")
  let g := (g.addChildren 2 [(Element.struct "tagged").withLeast (.literal 0)]).toOption.getD g
  let g := (g.addChildren 3 [Element.scriptElement "SetBig" (some (.name "Big")),
    ((Element.number "tag").withLength (.literal 1)).withValue ⟨"x",tag⟩]).toOption.getD g
  let g := (g.addChildren 2 [n]).toOption.getD g
  g.setStart (.index 2)

theorem tagged_built (tag : Int) : (tagged tag).Built := by
  have hfile : (((Grammar.new "choice").add (Element.script "Big" "cmd" "big")).add
      (Element.struct "file")).Built := .add _ (.add _ (.new _))
  exact .setStart _ (((hfile.grown 2 _).grown 3 _).grown 2 _)

def taggedSetup (tag : Int) : Setup (Array Note) where
  grammar := (tagged tag).link.1
  encodings := Text.Encodings.common
  runtime := some Command.runtime

def noteState (data : Array UInt8) : State (Array Note) := State.new {} (ofBytes data) #[] false

theorem tagged_order_follows :
    ∃ v τ acts, decode (taggedSetup 1) (noteState #[1, 2, 1]) = (.ok v,τ) ∧
      decodeCourse (taggedSetup 1) (noteState #[1, 2, 1]) acts (.ok v,τ) ∧
      FollowsOrder (taggedSetup 1) bigOnly v acts τ.order ∧
      v.preorder.map (fun w => (w.element,w.order)) =
        [(0,none), (2,none), (3,none), (4,none), (5,some .little), (6,some .big)] := by
  have hg : (tagged 1).resolve = .ok (taggedSetup 1).grammar :=
    Grammar.resolve_sound (by decide +kernel)
  have hs : (taggedSetup 1).SetBy bigOnly := commands_set_by (by decide +kernel)
  obtain ⟨v,τ,hv⟩ := run_ok (r := decode (taggedSetup 1) (noteState #[1, 2, 1]))
    (by decide +kernel)
  have hnodes : (decode (taggedSetup 1) (noteState #[1, 2, 1])).1.toOption.map
      (fun v => v.preorder.map fun w => (w.element,w.order)) =
      some [(0,none), (2,none), (3,none), (4,none), (5,some .little), (6,some .big)] := by
    decide +kernel
  rw [hv] at hnodes
  obtain ⟨⟨acts,hacts⟩,hfollows⟩ :=
    (byte_order_follows (tagged_built 1) hg hs (noteState #[1, 2, 1])).1 v τ hv
  exact ⟨v,τ,acts,hv,hacts,hfollows acts hacts,Option.some.inj hnodes⟩

/-- Where the tag is another one, the record is given up, and no script is left in the tree. But
the number behind it goes by the order that the script has set. -/
theorem untagged_order_left :
    (tagged 9).Built ∧ (tagged 9).resolve = .ok (taggedSetup 9).grammar ∧
      (taggedSetup 9).SetBy bigOnly ∧
      ∃ v τ before w after, decode (taggedSetup 9) (noteState #[1, 2]) = (.ok v,τ) ∧
        v.preorder = before ++ w :: after ∧ (taggedSetup 9).grammar.Dynamic w.element ∧
        lastOrder (taggedSetup 9).options.order
          (before.filterMap fun u => (taggedSetup 9).grammar.setBy bigOnly u.element) = .little ∧
        w.order = some .big := by
  refine ⟨tagged_built 9,Grammar.resolve_sound (by decide +kernel),
    commands_set_by (by decide +kernel),?_⟩
  obtain ⟨v,τ,hv⟩ := run_ok (r := decode (taggedSetup 9) (noteState #[1, 2])) (by decide +kernel)
  have hfound : (decode (taggedSetup 9) (noteState #[1, 2])).1.toOption.any fun v =>
      (v.preorder[2]?).any (fun w => w.element == 6 && w.order == some .big) &&
        lastOrder (taggedSetup 9).options.order ((v.preorder.take 2).filterMap fun u =>
          (taggedSetup 9).grammar.setBy bigOnly u.element) == .little := by
    decide +kernel
  rw [hv] at hfound
  simp only [Except.toOption, Option.any_some, Bool.and_eq_true, beq_iff_eq,
    Option.any_eq_true] at hfound
  obtain ⟨⟨w,hw,helement,horder⟩,hlast⟩ := hfound
  obtain ⟨hlength,rfl⟩ := List.getElem?_eq_some_iff.mp hw
  have hdynamic : (taggedSetup 9).grammar.Dynamic 6 := ⟨by decide +kernel,by decide +kernel⟩
  refine ⟨v,τ,v.preorder.take 2,v.preorder[2],v.preorder.drop 3,hv,?_,?_,hlast,horder⟩
  · simp
  · rw [helement]
    exact hdynamic

end ByteGrammar
