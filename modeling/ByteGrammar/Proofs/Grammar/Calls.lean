import ByteGrammar.Grammar.Calls
import ByteGrammar.Proofs.Action
import ByteGrammar.Proofs.Grammar.Grown

/-!
# What calls build

Whatever calls are made on a new grammar, those that fail among them, the elements form a forest:
each stands in one place, and a walk comes past each of them behind the structure it stands in. A
call that fails leaves the grammar as it was, also when several children are to be added.
-/

set_option autoImplicit false

namespace ByteGrammar.Grammar

open Stepwise

def landed {α : Type} (g : Grammar) (a : α) :
    Except GrammarFault Grammar → Except GrammarFault α × Grammar
  | .ok g' => (.ok a,g')
  | .error fault => (.error fault,g)

def structures (g : Grammar) : List ElementId :=
  (List.range g.size).filter fun id => (g.element id).kind.isStruct

def elements (g : Grammar) : List Element := g.nodes.toList.map Node.element

def placesOf (g : Grammar) (count : Nat) : List ElementId := List.range' g.size count

section
variable (g : Grammar) (parent : ElementId) (e : Element)

theorem element_some {id : ElementId} (h : id < g.size) : g.element? id = some (g.element id) := by
  rw [element, element?, Array.getElem?_eq_getElem h]
  rfl

theorem mem_structures {id : ElementId} :
    id ∈ g.structures ↔ id < g.size ∧ (g.element id).kind.isStruct := by
  simp [structures]

theorem add_child_call_run :
    BuildM.addChild parent e g = landed g g.size (g.addChild parent e) := by
  unfold BuildM.addChild Grammar.addChild
  rw [bind_run, get_run]
  dsimp only
  cases hp : g.element? parent with
  | none => rfl
  | some p => by_cases hs : p.kind.isStruct <;> simp only [hs] <;> rfl

theorem set_base_call_run (id : ElementId) (base : Designator) :
    BuildM.setBase id base g = landed g () (g.setBase id base) := by
  unfold BuildM.setBase Grammar.setBase
  rw [bind_run, get_run]
  dsimp only
  cases he : g.element? id with
  | none => rfl
  | some e =>
    cases hf : g.find? base with
    | none => rfl
    | some target =>
      by_cases ha : (g.element target).kind.agrees e.kind <;> simp only [ha] <;> rfl

theorem add_child_iff : (∃ g', g.addChild parent e = .ok g') ↔ parent ∈ g.structures := by
  rw [mem_structures]
  constructor
  · rintro ⟨g',h⟩
    obtain ⟨⟨p,hp,hs⟩,-⟩ := add_child_parent h
    have hlt := element_known hp
    rw [element_some g hlt] at hp
    cases hp
    exact ⟨hlt,hs⟩
  · rintro ⟨hlt,hs⟩
    simp [addChild, element_some g hlt, hs]

end

theorem elements_given (nodes : Array Node) (parent : ElementId)
    (f : List ElementId → List ElementId) :
    (nodes.modify parent fun node => { node with children := f node.children }).toList.map
      Node.element = nodes.toList.map Node.element := by
  apply List.ext_getElem?
  intro i
  simp only [List.getElem?_map, Array.getElem?_toList, Array.getElem?_modify]
  by_cases hi : parent = i
  · cases nodes[i]? <;> simp [hi]
  · simp [hi]

section
variable {g g' : Grammar} {parent : ElementId} {e : Element}

theorem add_child_elements (h : g.addChild parent e = .ok g') :
    g'.elements = g.elements ++ [e] ∧ g'.start = g.start := by
  unfold addChild at h
  cases hp : g.element? parent with
  | none => simp [hp] at h
  | some p =>
    by_cases hs : p.kind.isStruct
    · simp only [hp, hs, if_true, Except.ok.injEq] at h
      subst h
      refine ⟨?_,rfl⟩
      simp only [elements]
      rw [elements_given _ _ (· ++ [g.size])]
      simp [push]
    · simp [hp, hs] at h

theorem add_child_structures (h : g.addChild parent e = .ok g') : parent ∈ g'.structures := by
  obtain ⟨hsize,helement,-⟩ := add_child_ok h
  have hparent := (add_child_iff g parent e).mp ⟨g',h⟩
  rw [mem_structures] at hparent ⊢
  rw [element, helement parent hparent.1, hsize]
  exact ⟨Nat.lt_succ_of_lt hparent.1,hparent.2⟩

end

structure AddsAll (g g' : Grammar) (parent : ElementId) (es : List Element) : Prop where
  elements : g'.elements = g.elements ++ es
  children : ∀ id, g'.children id =
    g.children id ++ if parent = id then g.placesOf es.length else []
  top : g'.topLevel = g.topLevel
  start : g'.start = g.start

theorem AddsAll.none (g : Grammar) (parent : ElementId) : AddsAll g g parent [] := by
  constructor <;> simp [placesOf]

theorem AddsAll.cons {g g' g'' : Grammar} {parent : ElementId} {e : Element} {es : List Element}
    (h : g.addChild parent e = .ok g') (hrest : AddsAll g' g'' parent es) :
    AddsAll g g'' parent (e :: es) := by
  obtain ⟨hsize,-,hchildren⟩ := add_child_ok h
  obtain ⟨helements,hstart⟩ := add_child_elements h
  constructor
  · simp [hrest.elements, helements]
  · intro id
    rw [hrest.children, hchildren]
    by_cases hid : parent = id
    · simp [hid, placesOf, hsize, List.range'_succ]
    · simp [hid]
  · rw [hrest.top, (add_child_parent h).2]
  · rw [hrest.start, hstart]

section
variable {g : Grammar} {parent : ElementId}

theorem add_children_call_ok (hp : parent ∈ g.structures) (es : List Element) :
    ∃ g', g.addChildren parent es = .ok g' ∧ AddsAll g g' parent es ∧
      BuildM.addChildren parent es g = (.ok (g.placesOf es.length),g') := by
  induction es generalizing g with
  | nil => exact ⟨g,rfl,AddsAll.none g parent,rfl⟩
  | cons e es ih =>
    -- the first child is taken, and behind it `parent` is still a structure
    obtain ⟨next,hnext⟩ := (add_child_iff g parent e).mpr hp
    obtain ⟨g',hg',hadds,hrun⟩ := ih (add_child_structures hnext)
    refine ⟨g',?_,hadds.cons hnext,?_⟩
    · rw [Grammar.addChildren, hnext]
      exact hg'
    · have hsize := (add_child_ok hnext).1
      rw [BuildM.addChildren, List.mapM_cons, bind_run, add_child_call_run, hnext]
      simp only [landed, bind_run]
      rw [← BuildM.addChildren, hrun]
      simp [pure_run, placesOf, hsize, List.range'_succ]

theorem add_children_call_fault (hp : parent ∉ g.structures) (e : Element) (es : List Element) :
    ∃ fault, g.addChildren parent (e :: es) = .error fault ∧
      BuildM.addChildren parent (e :: es) g = (.error fault,g) := by
  cases h : g.addChild parent e with
  | ok g' => exact absurd ((add_child_iff g parent e).mp ⟨g',h⟩) hp
  | error fault =>
    refine ⟨fault,?_,?_⟩
    · rw [Grammar.addChildren, h]
      rfl
    · rw [BuildM.addChildren, List.mapM_cons, bind_run, add_child_call_run, h]
      rfl

end

/-- Children that are added one by one are added as if at once. -/
theorem add_children_call_run (g : Grammar) (parent : ElementId) (es : List Element) :
    BuildM.addChildren parent es g = landed g (g.placesOf es.length) (g.addChildren parent es) := by
  by_cases hp : parent ∈ g.structures
  · obtain ⟨g',hg',-,hrun⟩ := add_children_call_ok hp es
    rw [hrun, hg']
    rfl
  · cases es with
    | nil => rfl
    | cons e es =>
      obtain ⟨fault,hfault,hrun⟩ := add_children_call_fault hp e es
      rw [hrun, hfault]
      rfl

def Call.outcome (g : Grammar) : Call → Except GrammarFault Grammar
  | .add e => .ok (g.add e)
  | .addChild parent e => g.addChild parent e
  | .addChildren parent es => g.addChildren parent es
  | .setStart start => .ok (g.setStart start)
  | .setBase id base => g.setBase id base

def Call.places (g : Grammar) : Call → List ElementId
  | .add _ | .addChild _ _ => g.placesOf 1
  | .addChildren _ es => g.placesOf es.length
  | .setStart _ | .setBase _ _ => []

theorem make_run (g : Grammar) (call : Call) :
    call.make g = landed g (call.places g) (call.outcome g) := by
  cases call with
  | add e => rfl
  | addChild parent e =>
    simp only [Call.make, bind_run, add_child_call_run]
    cases h : g.addChild parent e with
    | ok g' =>
      simp only [Call.outcome, h, landed]
      rfl
    | error fault => simp only [Call.outcome, h, landed]
  | addChildren parent es => exact add_children_call_run g parent es
  | setStart start => rfl
  | setBase id base =>
    simp only [Call.make, bind_run, set_base_call_run]
    cases h : g.setBase id base with
    | ok g' =>
      simp only [Call.outcome, h, landed]
      rfl
    | error fault => simp only [Call.outcome, h, landed]

theorem make_fault {g : Grammar} {call : Call} {fault : GrammarFault}
    (h : (call.make g).1 = .error fault) : call.leave g = g := by
  rw [make_run] at h
  rw [Call.leave, make_run]
  cases ho : call.outcome g with
  | ok g' => simp [ho, landed] at h
  | error fault => rfl

theorem Grown.outcome {g g' : Grammar} {call : Call} (hg : Grown g)
    (h : call.outcome g = .ok g') : Grown g' := by
  cases call with
  | add e =>
    cases h
    exact hg.add e
  | addChild parent e => exact hg.addChild h
  | addChildren parent es => exact hg.addChildren h
  | setStart start =>
    cases h
    exact hg.setStart start
  | setBase id base => exact hg.setBase h

theorem Grown.leave {g : Grammar} (hg : Grown g) (call : Call) : Grown (call.leave g) := by
  rw [Call.leave, make_run]
  cases ho : call.outcome g with
  | ok g' => exact hg.outcome ho
  | error fault => exact hg

theorem Grown.after_calls {g : Grammar} (hg : Grown g) (calls : List Call) :
    Grown (g.afterCalls calls) := by
  induction calls generalizing g with
  | nil => exact hg
  | cons call calls ih => exact ih (hg.leave call)

def added (g : Grammar) : List ElementId := List.range' 1 (g.size - 1)

/-- Every added element stands in one place, the top level or a structure that was added before it,
and a walk comes past it once, behind that structure, which it names. -/
structure Planted (g : Grammar) : Prop where
  once : (g.topLevel ++ g.structures.flatMap g.children).Perm g.added
  held : ∀ p child, child ∈ g.children p → p ∈ g.structures ∧ p < child
  walked : (g.walk.map Prod.fst).Perm g.added
  atTop : ∀ id, (id,none) ∈ g.walk ↔ id ∈ g.topLevel
  inside : ∀ id p, (id,some p) ∈ g.walk ↔ id ∈ g.children p
  behind : ∀ id p, (id,some p) ∈ g.walk →
    ∃ outer, List.Sublist [(p,outer),(id,some p)] g.walk

theorem mem_added {g : Grammar} {id : Nat} : id ∈ g.added ↔ g.Added id := by
  rw [added, List.mem_range'_1, Added]
  omega

section
variable {g : Grammar}

theorem Grown.held (h : Grown g) {p child : Nat} (hc : child ∈ g.children p) :
    p ∈ g.structures ∧ p < child := by
  have hbelow := (grown_rooted h).below hc
  exact ⟨(mem_structures g).mpr ⟨Nat.lt_trans hbelow.2.1 hbelow.2.2,h.holder hc⟩,hbelow.2.1⟩

theorem Grown.once (h : Grown g) :
    (g.topLevel ++ g.structures.flatMap g.children).Perm g.added := by
  have hr := grown_rooted h
  have hf := built_forest h.built
  have hnodup : (g.topLevel ++ g.structures.flatMap g.children).Nodup := by
    apply hr.distinct.append
    · rw [List.nodup_flatMap]
      refine ⟨fun p _ => hf.nodup p,?_⟩
      apply (List.nodup_range.filter _).pairwise_of_forall_ne
      intro p _ q _ hne child hp hq
      exact hne (hf.apart hp hq)
    · intro id htop hinner
      obtain ⟨p,-,hp⟩ := List.mem_flatMap.mp hinner
      exact hr.apart htop hp
  rw [added, List.perm_ext_iff_of_nodup hnodup List.nodup_range']
  intro id
  rw [← added, mem_added, List.mem_append, List.mem_flatMap]
  constructor
  · rintro (htop | ⟨p,-,hp⟩)
    · exact hr.top htop
    · have hbelow := hr.below hp
      exact ⟨Nat.lt_trans hbelow.1 hbelow.2.1,hbelow.2.2⟩
  · intro hid
    exact (hr.placed hid).imp_right fun ⟨p,hp⟩ => ⟨p,(h.held hp).1,hp⟩

theorem Rooted.at_top (hr : Rooted g) (id : Nat) : (id,none) ∈ g.walk ↔ id ∈ g.topLevel := by
  rw [Grammar.walk, List.mem_flatMap]
  constructor
  · rintro ⟨t,ht,hwalk⟩
    rcases walk_from_parent hwalk with ⟨rfl,-⟩ | ⟨p,q,hr,-⟩
    · exact ht
    · cases hr
  · intro htop
    have hadded := hr.top htop
    obtain ⟨levels,hlevels⟩ := Nat.exists_eq_add_of_lt (Nat.lt_trans hadded.1 hadded.2)
    refine ⟨id,htop,?_⟩
    rw [hlevels]
    exact List.mem_cons_self

theorem Rooted.inside (hr : Rooted g) (hf : Forest g) (id p : Nat) :
    (id,some p) ∈ g.walk ↔ id ∈ g.children p := by
  constructor
  · intro hwalk
    obtain ⟨t,ht,hwalk⟩ := List.mem_flatMap.mp hwalk
    rcases walk_from_parent hwalk with ⟨-,hstart⟩ | ⟨q,_,hq,hid,-⟩
    · cases hstart
    · cases hq
      exact hid
  · intro hid
    have hbelow := hr.below hid
    have hadded : g.Added id := ⟨Nat.lt_trans hbelow.1 hbelow.2.1,hbelow.2.2⟩
    obtain ⟨⟨_,r⟩,hwalk,rfl⟩ :=
      List.mem_map.mp (((hr.walked hf (Nat.le_refl _)).1 id).mpr hadded)
    obtain ⟨t,ht,hfrom⟩ := List.mem_flatMap.mp hwalk
    rcases walk_from_parent hfrom with ⟨rfl,-⟩ | ⟨q,_,rfl,hchild,-⟩
    · exact absurd hid (hr.apart ht)
    · cases hf.apart hid hchild
      exact hwalk

theorem walk_behind {id p : Nat} (h : (id,some p) ∈ g.walk) :
    ∃ outer, List.Sublist [(p,outer),(id,some p)] g.walk := by
  obtain ⟨t,ht,hwalk⟩ := List.mem_flatMap.mp h
  rcases walk_from_behind hwalk with ⟨-,hstart⟩ | ⟨q,outer,hq,-,hbefore⟩
  · cases hstart
  · cases hq
    exact ⟨outer,hbefore.trans (List.sublist_flatten_of_mem (List.mem_map_of_mem ht))⟩

theorem grown_planted (h : Grown g) : Planted g := by
  have hr := grown_rooted h
  have hf := built_forest h.built
  obtain ⟨hmem,hnodup⟩ := hr.walked hf (Nat.le_refl g.size)
  constructor
  · exact h.once
  · intro p child hc
    exact h.held hc
  · rw [added, walk, List.perm_ext_iff_of_nodup hnodup List.nodup_range']
    intro id
    exact (hmem id).trans mem_added.symm
  · exact hr.at_top
  · exact hr.inside hf
  · intro id p hwalk
    exact walk_behind hwalk

end

/-- Whatever is called on a new grammar, the elements form a forest that a walk comes past in
order. A call that fails leaves the grammar unchanged, and of several children all are added, or
none where `parent` is no structure. -/
theorem calls_keep_forest (name : String) (calls : List Call) :
    let g := (new name).afterCalls calls
    Planted g ∧
      (∀ (call : Call) (fault : GrammarFault),
        (call.make g).1 = .error fault → call.leave g = g) ∧
      ∀ (parent : ElementId) (es : List Element),
        (∃ g', BuildM.addChildren parent es g = (.ok (g.placesOf es.length),g') ∧
          AddsAll g g' parent es) ∨
        ∃ fault, BuildM.addChildren parent es g = (.error fault,g) ∧ parent ∉ g.structures := by
  intro g
  have hg : Grown g := (Grown.new name).after_calls calls
  refine ⟨grown_planted hg,fun call fault h => make_fault h,fun parent es => ?_⟩
  by_cases hp : parent ∈ g.structures
  · obtain ⟨g',-,hadds,hrun⟩ := add_children_call_ok hp es
    exact .inl ⟨g',hrun,hadds⟩
  · cases es with
    | nil => exact .inl ⟨g,rfl,AddsAll.none g parent⟩
    | cons e es =>
      obtain ⟨fault,-,hrun⟩ := add_children_call_fault hp e es
      exact .inr ⟨fault,hrun,hp⟩

def groveCalls : List Call :=
  [.add (.struct "grove"), .addChild 1 (.number "oak"), .addChildren 2 [.number "leaf"],
    .addChildren 1 [.struct "hedge", .binary "soil"], .setBase 2 (.index 1),
    .addChildren 3 [.number "rose"], .setStart (.index 1)]

theorem grove_kept :
    ((Call.addChildren 2 [.number "leaf", .number "nut"]).make
      ((new "wood").afterCalls groveCalls)).1 = .error (.notAStructure "Number<00 oak>") ∧
    (Call.addChildren 2 [.number "leaf", .number "nut"]).leave
      ((new "wood").afterCalls groveCalls) = (new "wood").afterCalls groveCalls ∧
    ((new "wood").afterCalls groveCalls).walk =
      [(1,none), (2,some 1), (3,some 1), (5,some 3), (4,some 1)] :=
  ⟨rfl,(calls_keep_forest "wood" groveCalls).2.1 _ _ rfl,rfl⟩

end ByteGrammar.Grammar
