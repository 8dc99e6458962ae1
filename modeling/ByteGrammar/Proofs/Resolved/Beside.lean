import ByteGrammar.Proofs.Resolved.Moved
import ByteGrammar.Proofs.Resolved.Overlay
import ByteGrammar.Proofs.Resolved.Returns
import ByteGrammar.Proofs.Resolved.Shifted

/-!
# Grammars with one more child

A structure takes one more child, the last element of the author's, which runs a script once and has
a name of its own. The resolved grammar is as before beside it: every element has the attributes and
members that it had, in their places, apart from the members of that structure, which end in the new
child, and of what extends the structure.
-/

set_option autoImplicit false

namespace ByteGrammar

structure Resolved.Moves (ρ : Nat → Nat) (g g' : Resolved) : Prop where
  element : ∀ id : Nat, g'.element (ρ id) = g.element id
  known : ∀ {id : Nat}, id < g.size → ρ id < g'.size
  attributes : ∀ id : Nat, g'.attributesOf (ρ id) = (g.attributesOf id).moved ρ
  padding : g'.padding = ρ g.padding

structure Element.Calls (e : Element) : Prop where
  kind : ∃ script, e.kind = .scriptElement (some script)
  base : e.base = none
  least : e.least.getD (.literal 1) = .literal 1
  most : e.most.getD (.literal 1) = .literal 1

theorem Element.Calls.unwanted {e : Element} (he : e.Calls) (aim : Aim) :
    aim.admits e.kind = false := by
  obtain ⟨script,hkind⟩ := he.kind
  rw [hkind]
  cases aim <;> rfl

theorem padding_unwanted (aim : Aim) : aim.admits Element.padding.kind = false := by
  cases aim <;> rfl

structure Resolved.RunsOnce (g : Resolved) (id : ElementId) : Prop where
  kind : ∃ link, g.kind id = .scriptElement link
  script : (g.script? id).isSome
  least : (g.attributesOf id).least = .literal 1
  most : (g.attributesOf id).most = .literal 1
  length : (g.attributesOf id).length = some (.literal 0)

namespace Grammar

theorem target_none {g : Grammar} {id : ElementId} (h : (g.element id).link? = none) :
    g.target? id = none := by
  simp only [target?, h]

theorem place_member_new (g : Grammar) {child : ElementId} {members : List ElementId}
    (h : ∀ m ∈ members, (g.element m).name ≠ (g.element child).name) :
    g.placeMember child members = members ++ [child] := by
  induction members with
  | nil => rfl
  | cons m rest ih =>
    obtain ⟨hm,hrest⟩ := List.forall_mem_cons.mp h
    rw [placeMember, if_neg (by simpa using hm), ih hrest]
    rfl

theorem merge_members_last (g : Grammar) (inherited own : List ElementId) (child : ElementId) :
    g.mergeMembers inherited (own ++ [child]) =
      g.placeMember child (g.mergeMembers inherited own) :=
  List.foldl_append

section
variable {g g' : Grammar} {ρ : Nat → Nat}
  (hname : ∀ id : Nat, (g'.element (ρ id)).name = (g.element id).name)

include hname

theorem place_member_map (child : Nat) (members : List Nat) :
    g'.placeMember (ρ child) (members.map ρ) = (g.placeMember child members).map ρ := by
  induction members with
  | nil => rfl
  | cons m rest ih =>
    rw [List.map_cons, placeMember, placeMember, hname, hname, ih, apply_ite (List.map ρ)]
    rfl

theorem merge_members_map (inherited own : List Nat) :
    g'.mergeMembers (inherited.map ρ) (own.map ρ) = (g.mergeMembers inherited own).map ρ := by
  induction own generalizing inherited with
  | nil => rfl
  | cons child rest ih =>
    simp only [mergeMembers, List.map_cons, List.foldl_cons] at ih ⊢
    rw [place_member_map hname, ih]

end

/-- A structure that takes one more child, which runs a script and has a name of its own, in a
grammar whose links are sound before and after. -/
structure TakesCall (authored grown : Grammar) (s : Nat) (e : Element) : Prop where
  built : authored.Built
  added : authored.addChild s e = .ok grown
  fresh : ∀ id, authored.Added id → (authored.element id).name ≠ e.name
  calls : e.Calls
  linked : authored.link.2 = []
  relinked : grown.link.2 = []

section
variable {authored grown : Grammar} {s : Nat} {e : Element} (h : authored.TakesCall grown s e)

include h

theorem TakesCall.states : authored.arena.StatesBases ∧ grown.arena.StatesBases :=
  ⟨stated_faults_nil.mp ((link_faults_nil authored).mp h.linked).1,
    stated_faults_nil.mp ((link_faults_nil grown).mp h.relinked).1⟩

theorem TakesCall.grown_built : grown.Built := h.built.addChild h.added

theorem TakesCall.links : Links.Moves (shifted authored.size) authored.links grown.links where
  injective := fun _ _ => shifted_inj.mp
  element := shifted_element h.added
  base := by
    intro id
    obtain ⟨hstates,hstates'⟩ := h.states
    have hkind : e.kind.agrees .padding = false := by
      obtain ⟨script,hkind⟩ := h.calls.kind
      rw [hkind]
      rfl
    ext b
    rw [(links_turn h.grown_built hstates').1, Option.map_eq_some_iff]
    simp only [(links_turn h.built hstates).1]
    constructor
    · intro hext
      obtain ⟨x,hx,hold⟩ := shifted_found h.added h.built h.fresh hkind hstates hstates'
        (.base id) hext trivial
      exact ⟨x,hold,hx⟩
    · rintro ⟨x,hold,rfl⟩
      exact hold.shifted h.added h.built h.fresh hkind hstates hstates' trivial
  parent := by
    intro id
    obtain ⟨hstates,hstates'⟩ := h.states
    ext p
    rw [(links_turn h.grown_built hstates').2, shifted_parent h.added h.built,
      Option.map_eq_some_iff, Option.map_eq_some_iff]
    simp only [(links_turn h.built hstates).2]

theorem TakesCall.call_links : grown.links.base? authored.size = none ∧
    grown.links.parent? authored.size = some s := by
  obtain ⟨-,hstates'⟩ := h.states
  constructor
  · refine Option.eq_none_iff_forall_not_mem.mpr fun b hb => ?_
    exact new_extends_nothing h.added h.built h.fresh h.calls.base b
      ((links_turn h.grown_built hstates').1.mp hb)
  · exact (links_turn h.grown_built hstates').2.mpr (grown_parent h.added h.built)

theorem TakesCall.worked {id : Nat} {a : Attributes}
    (ha : authored.links.attributes[id]? = some a) :
    grown.links.attributes[shifted authored.size id]? =
      some (a.moved (shifted authored.size)) := by
  obtain ⟨hbase,hparent⟩ := h.call_links
  have hs := parent_known h.added
  have hsize : authored.links.grammar.size = authored.size + 1 := size_push authored .padding
  have hsize' : grown.links.grammar.size = authored.size + 2 := by
    rw [show grown.links.grammar.size = grown.size + 1 from size_push grown .padding,
      grown_size h.added]
  have hplaces : (List.range authored.size).map (shifted authored.size) =
      List.range authored.size :=
    (List.map_congr_left fun i hi => shifted_before (List.mem_range.mp hi)).trans (List.map_id _)
  have horder : List.range authored.links.grammar.size =
      List.range authored.size ++ [authored.size] := by
    rw [hsize, List.range_succ]
  have horder' : List.range grown.links.grammar.size =
      (List.range authored.size).map (shifted authored.size) ++
        authored.size :: [authored.size].map (shifted authored.size) := by
    rw [hsize', List.range_succ, List.range_succ, hplaces, List.map_singleton,
      shifted_behind (Nat.le_refl _), List.append_assoc]
    rfl
  have hplaced : grown.links.parent? authored.size = some (shifted authored.size s) := by
    rw [hparent, shifted_before hs]
  obtain ⟨xs,ys,b,hlength,hold,hnew⟩ := h.links.attributes_beside horder horder' (shifted_ne _)
    hbase hplaced (List.mem_range.mpr hs)
  rw [List.length_range] at hlength
  rw [hold] at ha
  rw [hnew]
  rcases Nat.lt_or_ge id authored.size with hlt | hge
  · rw [List.getElem?_append_left (by omega)] at ha
    rw [shifted_before hlt, List.getElem?_append_left (by rw [List.length_map]; omega),
      List.getElem?_map, ha]
    rfl
  · rw [List.getElem?_append_right (by omega), hlength] at ha
    rw [shifted_behind hge, List.getElem?_append_right (by rw [List.length_map]; omega),
      List.length_map, hlength, Nat.sub_add_comm hge, List.getElem?_cons_succ, List.getElem?_map,
      ha]
    rfl

theorem TakesCall.target (id : Nat) : grown.arena.target? (shifted authored.size id) =
    (authored.arena.target? id).map (shifted authored.size) := by
  have hsize := grown_size h.added
  rcases Nat.lt_or_ge id authored.size with hlt | hge
  · rw [shifted_before hlt, (push_appends grown .padding).target (built_contained h.grown_built)
      padding_unwanted (by omega), (add_child_appends h.added).target (built_contained h.built)
      h.calls.unwanted (Nat.ne_of_lt hlt), ← (push_appends authored .padding).target
      (built_contained h.built) padding_unwanted (Nat.ne_of_lt hlt)]
    cases ht : authored.arena.target? id with
    | none => rfl
    | some t =>
      obtain ⟨r,aim,-,hfollow⟩ := target_ok ht
      obtain ⟨hfound,hadmits⟩ := follow_ok hfollow
      exact congrArg some (shifted_before (target_found h.built hfound hadmits).1).symm
  · have hnone : (authored.arena.element id).link? = none := by
      rcases Nat.eq_or_lt_of_le hge with rfl | hgt
      · rw [element_arena_last]
        rfl
      · rw [element_outside _ _ (by rw [size_push]; exact hgt)]
        rfl
    rw [target_none hnone, target_none (by rw [shifted_element h.added, hnone])]
    rfl

theorem TakesCall.moved_default :
    (default : Attributes).moved (shifted authored.size) = default := by
  have hpos : 0 < authored.size := (built_root_kind h.built).1
  show { (default : Attributes) with valuesFrom := shifted authored.size 0 } = default
  rw [shifted_before hpos]
  rfl

theorem TakesCall.completed (id : Nat) (a : Attributes) :
    grown.arena.completeReference grown.targeted.toArray (shifted authored.size id)
        (a.moved (shifted authored.size)) =
      (authored.arena.completeReference authored.targeted.toArray id a).moved
        (shifted authored.size) := by
  have htable : ∀ t : Nat, grown.targeted.toArray.getD (shifted authored.size t) default =
      (authored.targeted.toArray.getD t default).moved (shifted authored.size) := by
    intro t
    rw [Array.getD_eq_getD_getElem?, Array.getD_eq_getD_getElem?, List.getElem?_toArray,
      List.getElem?_toArray]
    rcases Nat.lt_or_ge t (authored.size + 1) with hlt | hge
    · obtain ⟨b,hb⟩ := links_known hlt
      rw [targeted_get hb, targeted_get (h.worked hb), h.target]
      rfl
    · have hout : ∀ g : Grammar, g.targeted.length = g.size + 1 := by
        intro g
        simp only [targeted, List.length_map, List.length_zip, links_attributes_length,
          List.length_range]
        exact (Nat.min_self _).trans (size_push g .padding)
      have hsize := grown_size h.added
      rw [shifted_behind (Nat.le_of_succ_le hge),
        List.getElem?_eq_none (by rw [hout]; omega), List.getElem?_eq_none (by rw [hout]; omega)]
      exact h.moved_default.symm
  simp only [completeReference, shifted_element h.added]
  cases (authored.arena.element id).kind with
  | structRef link =>
    cases htarget : a.target with
    | none => simp [Attributes.moved, htarget]
    | some t =>
      cases hlength : a.length with
      | none => simp [Attributes.moved, htarget, hlength, htable]
      | some q => simp [Attributes.moved, htarget, hlength]
  | _ => rfl

theorem TakesCall.attributes (id : Nat) :
    grown.link.1.attributesOf (shifted authored.size id) =
      (authored.link.1.attributesOf id).moved (shifted authored.size) := by
  rcases Nat.lt_or_ge id (authored.size + 1) with hlt | hge
  · obtain ⟨a,ha⟩ := links_known hlt
    rw [link_attributes ha, link_attributes (h.worked ha), h.target, ← h.completed]
    rfl
  · rw [link_attributes_outside hge, shifted_behind (Nat.le_of_succ_le hge),
      link_attributes_outside (by rw [grown_size h.added]; omega), h.moved_default]

/-- The elements of the grammar stand in the one with the call, each in its place. -/
theorem TakesCall.moves :
    Resolved.Moves (shifted authored.size) authored.link.1 grown.link.1 where
  element := shifted_element h.added
  known := by
    intro id hid
    have hsize := grown_size h.added
    have hid' : id < authored.size + 1 := Nat.lt_of_lt_of_eq hid (size_push authored .padding)
    show shifted authored.size id < grown.arena.size
    rw [size_push, hsize]
    unfold shifted
    split <;> omega
  attributes := h.attributes
  padding := by
    rw [link_padding, link_padding, grown_size h.added, shifted_behind (Nat.le_refl _)]

theorem TakesCall.name (id : Nat) : (grown.arena.element (shifted authored.size id)).name =
    (authored.arena.element id).name := by
  rw [shifted_element h.added]

theorem TakesCall.call_attributes : ∃ parent, grown.link.1.attributesOf authored.size =
    { grown.links.unbased authored.size parent with
      target := grown.arena.target? authored.size } := by
  obtain ⟨script,hkind⟩ := h.calls.kind
  have hknown : authored.size < grown.size + 1 := by rw [grown_size h.added]; omega
  obtain ⟨a,ha⟩ := links_known hknown
  obtain ⟨-,-,hall⟩ := Links.attributes_handed (l := grown.links) Links.unbased_handed
  obtain ⟨parent,rfl⟩ := hall ha h.call_links.1
  refine ⟨parent,link_other ha (.inl fun link hk => ?_)⟩
  rw [Resolved.kind, show grown.link.1.element authored.size = e from grown_element h.added,
    hkind] at hk
  cases hk

theorem TakesCall.call_target {script : Designator}
    (hkind : e.kind = .scriptElement (some script)) :
    ∃ t, (grown.link.1.attributesOf authored.size).target = some t ∧
      (grown.arena.element t).kind.isScript := by
  have hknown : authored.size < grown.size + 1 := by rw [grown_size h.added]; omega
  have hlink : (grown.arena.element authored.size).link? = some (script,.script) := by
    rw [grown_element h.added, Element.link?, hkind]
    rfl
  obtain ⟨-,-,-,-,htargets⟩ := (link_faults_nil grown).mp h.relinked
  obtain ⟨t,hfollow⟩ := (target_faults_nil.mp (htargets _ hknown)).2 script .script hlink
  exact ⟨t,(link_target_eq hknown).trans (target_followed hlink hfollow),(follow_ok hfollow).2⟩

theorem TakesCall.call : grown.link.1.RunsOnce authored.size := by
  obtain ⟨script,hkind⟩ := h.calls.kind
  obtain ⟨parent,hown⟩ := h.call_attributes
  obtain ⟨t,htarget,hscript⟩ := h.call_target hkind
  have helement : grown.link.1.element authored.size = e := grown_element h.added
  have hsettings : (grown.links.grammar.element authored.size).settings =
      { least := e.least, most := e.most, length := some (.literal 0), unit := e.unit } := by
    rw [show grown.links.grammar.element authored.size = e from helement, Element.settings, hkind]
  refine ⟨⟨some script,?_⟩,script_of_holder (t := t) ?_ hscript,?_,?_,?_⟩
  · rw [Resolved.kind, helement, hkind]
  · rw [Resolved.scriptHolder?, Resolved.kind, helement, hkind]
    exact htarget
  all_goals rw [hown, Links.unbased, hsettings]
  · exact h.calls.least
  · exact h.calls.most
  · rfl

section
variable (hbase : ∀ id, (authored.link.1.attributesOf id).base ≠ some s)

include hbase

theorem TakesCall.gathered (steps : Nat) {id : Nat} (hid : id ≠ s) :
    grown.arena.membersOf grown.linkedBases steps (shifted authored.size id) =
      (authored.arena.membersOf authored.linkedBases steps id).map (shifted authored.size) := by
  have hchildren : ∀ {i : Nat}, i ≠ s → grown.arena.children (shifted authored.size i) =
      (authored.arena.children i).map (shifted authored.size) := by
    intro i hi
    rw [shifted_children h.added h.built, if_neg (Ne.symm hi), List.append_nil]
  induction steps generalizing id with
  | zero => exact hchildren hid
  | succ steps ih =>
    have hlinks : grown.linkedBases[shifted authored.size id]?.join =
        (authored.linkedBases[id]?.join).map (shifted authored.size) := h.links.base id
    have hother := (link_placed id).2 ▸ hbase id
    rw [membersOf, membersOf, hlinks, hchildren hid]
    cases hb : authored.linkedBases[id]?.join with
    | none => rfl
    | some b =>
      have hne : b ≠ s := by
        rintro rfl
        exact hother hb
      simp only [Option.map_some]
      rw [ih hne, merge_members_map h.name]

/-- What does not extend the structure has the members that it had. -/
theorem TakesCall.members {id : Nat} (hid : id ≠ s) :
    grown.link.1.membersOf (shifted authored.size id) =
      (authored.link.1.membersOf id).map (shifted authored.size) := by
  have hchain := chain_length_le (linked_acyclic h.linked) (authored.size + 1 + 1) id
  rw [show authored.linkedBases.size = authored.size + 1 from
    (BaseSearch.bases_size _ _ _).trans (size_push authored .padding)] at hchain
  rw [linked_members_of, linked_members_of, size_push, size_push, grown_size h.added,
    h.gathered hbase _ hid, authored.arena.members_of_more hchain]

theorem TakesCall.members_called : grown.link.1.membersOf s =
    (authored.link.1.membersOf s).map (shifted authored.size) ++ [authored.size] := by
  have hs := parent_known h.added
  have hplace : shifted authored.size s = s := shifted_before hs
  have hchildren := shifted_children h.added h.built s
  rw [hplace, if_pos rfl] at hchildren
  have hown := h.attributes s
  rw [hplace] at hown
  cases hb : (authored.link.1.attributesOf s).base with
  | none =>
    rw [linked_alone h.linked hb, linked_alone h.relinked (by rw [hown, Attributes.moved, hb]; rfl),
      hchildren]
  | some b =>
    have hne : b ≠ s := by
      rintro rfl
      exact hbase b hb
    rw [linked_merged h.linked hb,
      linked_merged h.relinked (by rw [hown, Attributes.moved, hb]; rfl), hchildren,
      h.members hbase hne, merge_members_last, merge_members_map h.name]
    refine place_member_new _ fun m hm => ?_
    obtain ⟨x,hx,rfl⟩ := List.mem_map.mp hm
    rw [← linked_merged h.linked hb] at hx
    have hadded := member_added h.built hx
    rw [h.name, grown_element h.added, element_of_push _ hadded.2]
    exact h.fresh x hadded

end

end

end Grammar
end ByteGrammar
