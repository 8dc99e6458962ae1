import Mathlib.Data.List.Nodup
import ByteGrammar.Grammar.Basic
import ByteGrammar.Proofs.Grammar.Built

/-!
# Grammars that only grew

In a grammar that only grew, nothing that was added has been lost: every element stands at the top
level or among the children of a structure that was added before it. So a walk comes past every
element, and past none twice.
-/

set_option autoImplicit false

namespace ByteGrammar.Grammar

/-- What grows from a new grammar by additions and settings. An element that is changed in place
stays of its kind. -/
inductive Grown : Grammar → Prop
  | new (name : String) : Grown (new name)
  | add {g : Grammar} (e : Element) (grown : Grown g) : Grown (g.add e)
  | addChild {g g' : Grammar} {parent : ElementId} {e : Element}
      (added : g.addChild parent e = .ok g') (grown : Grown g) : Grown g'
  | setStart {g : Grammar} (start : Designator) (grown : Grown g) : Grown (g.setStart start)
  | modify {g : Grammar} {id : ElementId} {f : Element → Element}
      (keeps : (f (g.element id)).kind.agrees (g.element id).kind) (grown : Grown g) :
      Grown (g.modify id f)

theorem Grown.addChildren {g g' : Grammar} {parent : ElementId} {elements : List Element}
    (hg : Grown g) (h : g.addChildren parent elements = .ok g') : Grown g' :=
  add_children_closed Grown.addChild h hg

theorem Grown.grown {g : Grammar} (hg : Grown g) (parent : ElementId) (elements : List Element) :
    Grown ((g.addChildren parent elements).toOption.getD g) := by
  rcases h : g.addChildren parent elements with fault | g'
  · exact hg
  · exact hg.addChildren h

theorem Grown.setBase {g g' : Grammar} {id : ElementId} {base : Designator} (hg : Grown g)
    (h : g.setBase id base = .ok g') : Grown g' := by
  rw [set_base_ok h]
  exact hg.modify (beq_self_eq_true _)

theorem Grown.built {g : Grammar} (h : Grown g) : Built g := by
  induction h with
  | new name => exact .new name
  | add e _ ih => exact ih.add e
  | addChild added _ ih => exact ih.addChild added
  | setStart start _ ih => exact ih.setStart start
  | modify keeps _ ih => exact ih.modify keeps

def Added (g : Grammar) (id : Nat) : Prop := 0 < id ∧ id < g.size

instance (g : Grammar) (id : Nat) : Decidable (g.Added id) :=
  inferInstanceAs (Decidable (_ ∧ _))

structure Rooted (g : Grammar) : Prop where
  top : ∀ {id : Nat}, id ∈ g.topLevel → g.Added id
  below : ∀ {p child : Nat}, child ∈ g.children p → 0 < p ∧ p < child ∧ child < g.size
  placed : ∀ {id : Nat}, g.Added id → id ∈ g.topLevel ∨ ∃ p : Nat, id ∈ g.children p
  distinct : g.topLevel.Nodup
  apart : ∀ {id p : Nat}, id ∈ g.topLevel → id ∉ g.children p

theorem Rooted.same {g g' : Grammar} (h : Rooted g) (hs : g'.size = g.size)
    (ht : g'.topLevel = g.topLevel) (hc : ∀ id, g'.children id = g.children id) : Rooted g' := by
  constructor
  · intro id hid
    rw [ht] at hid
    exact ⟨(h.top hid).1,hs ▸ (h.top hid).2⟩
  · intro p child hchild
    rw [hc] at hchild
    exact hs ▸ h.below hchild
  · intro id hid
    rw [ht]
    simp only [hc]
    exact h.placed ⟨hid.1,hs ▸ hid.2⟩
  · rw [ht]
    exact h.distinct
  · intro id p hid
    rw [ht] at hid
    rw [hc]
    exact h.apart hid

theorem Rooted.add {g : Grammar} (h : Rooted g) (hpos : 0 < g.size) (e : Element) :
    Rooted (g.add e) := by
  have hs : (g.add e).size = g.size + 1 := size_push g e
  have hc : ∀ id : Nat, (g.add e).children id = g.children id := fun id => children_push g id e
  have ht : ∀ {id : Nat}, id ∈ (g.add e).topLevel ↔ id ∈ g.topLevel ∨ id = g.size := by
    simp [Grammar.add]
  constructor
  · intro id hid
    rw [Added, hs]
    rcases ht.mp hid with hid | rfl
    · have hadded := h.top hid
      unfold Added at hadded
      omega
    · omega
  · intro p child hchild
    rw [hc] at hchild
    have hb := h.below hchild
    omega
  · intro id hid
    rw [ht]
    simp only [hc]
    by_cases hlast : id = g.size
    · exact .inl (.inr hlast)
    · rw [Added, hs] at hid
      exact (h.placed ⟨hid.1,by omega⟩).imp_left .inl
  · show (g.topLevel ++ [g.size]).Nodup
    refine h.distinct.append (List.nodup_singleton _) ?_
    simp only [List.disjoint_singleton]
    exact fun hid => Nat.lt_irrefl _ (h.top hid).2
  · intro id p hid
    rw [hc]
    rcases ht.mp hid with hid | rfl
    · exact h.apart hid
    · exact fun hchild => Nat.lt_irrefl _ (h.below hchild).2.2

theorem add_child_parent {g g' : Grammar} {parent : ElementId} {e : Element}
    (h : g.addChild parent e = .ok g') :
    (∃ p, g.element? parent = some p ∧ p.kind.isStruct) ∧ g'.topLevel = g.topLevel := by
  unfold addChild at h
  cases hp : g.element? parent with
  | none =>
    rw [hp] at h
    cases h
  | some p =>
    rw [hp] at h
    dsimp only at h
    split at h
    · next hstruct =>
      cases h
      exact ⟨⟨p,rfl,hstruct⟩,rfl⟩
    · cases h

theorem Rooted.add_child {g g' : Grammar} {parent : Nat} {e : Element} (h : Rooted g)
    (hb : Built g) (ha : g.addChild parent e = .ok g') : Rooted g' := by
  obtain ⟨hs,-,hc⟩ := add_child_ok ha
  obtain ⟨⟨p,hp,hstruct⟩,ht⟩ := add_child_parent ha
  have hlt : parent < g.size := element_known hp
  have hpos : 0 < parent := by
    rcases Nat.eq_zero_or_pos parent with rfl | hpos
    · obtain ⟨own,ho,hk⟩ := built_root hb
      cases hp.symm.trans ho
      rw [hk] at hstruct
      cases hstruct
    · exact hpos
  have hmem : ∀ {id child : Nat}, child ∈ g'.children id ↔
      child ∈ g.children id ∨ parent = id ∧ child = g.size := by
    intro id child
    rw [hc, List.mem_append]
    by_cases hid : parent = id
    · simp [hid]
    · simp [hid]
  constructor
  · intro id hid
    rw [ht] at hid
    have hadded := h.top hid
    unfold Added at *
    omega
  · intro id child hchild
    rcases hmem.mp hchild with hchild | ⟨rfl,rfl⟩
    · have hbelow := h.below hchild
      omega
    · omega
  · intro id hid
    rw [ht]
    by_cases hlast : id = g.size
    · exact .inr ⟨parent,hmem.mpr (.inr ⟨rfl,hlast⟩)⟩
    · unfold Added at hid
      exact (h.placed ⟨hid.1,by omega⟩).imp_right fun ⟨q,hq⟩ => ⟨q,hmem.mpr (.inl hq)⟩
  · rw [ht]
    exact h.distinct
  · intro id q hid hchild
    rw [ht] at hid
    rcases hmem.mp hchild with hchild | ⟨-,rfl⟩
    · exact h.apart hid hchild
    · exact Nat.lt_irrefl _ (h.top hid).2

/-- Nothing that grew is lost. -/
theorem grown_rooted {g : Grammar} (h : Grown g) : Rooted g := by
  induction h with
  | new name =>
    constructor
    · exact nofun
    · intro p child hchild
      rw [new_children] at hchild
      cases hchild
    · intro id hid
      have hone : (new name).size = 1 := rfl
      unfold Added at hid
      omega
    · exact List.nodup_nil
    · exact nofun
  | @add g e hg ih =>
    obtain ⟨own,ho,-⟩ := built_root hg.built
    exact ih.add (element_known ho) e
  | addChild added hg ih => exact ih.add_child hg.built added
  | setStart start _ ih => exact ih.same rfl rfl fun _ => rfl
  | modify _ _ ih => exact ih.same (size_modify _ _ _) rfl fun _ => children_modify _ _ _ _

theorem agrees_struct {k l : Kind} (h : k.agrees l) : k.isStruct = l.isStruct := by
  have hindex : ∀ m : Kind, m.isStruct = (m.ctorIdx == (Kind.struct {}).ctorIdx) := by
    intro m
    cases m <;> rfl
  rw [hindex k, hindex l, eq_of_beq h]

theorem Grown.holder {g : Grammar} (h : Grown g) {p child : Nat} (hc : child ∈ g.children p) :
    (g.element p).kind.isStruct := by
  have hlt : ∀ {g : Grammar}, child ∈ g.children p → p < g.size := by
    intro g hc
    by_contra hge
    rw [children_outside g p (Nat.le_of_not_lt hge)] at hc
    cases hc
  induction h with
  | new name =>
    rw [new_children] at hc
    cases hc
  | @add g e _ ih =>
    have hold : child ∈ g.children p := children_push g p e ▸ hc
    show ((g.push e).element p).kind.isStruct
    rw [element_of_push g (hlt hold)]
    exact ih hold
  | @addChild g g' parent e added _ ih =>
    obtain ⟨-,helement,hchildren⟩ := add_child_ok added
    obtain ⟨⟨own,hown,hstruct⟩,-⟩ := add_child_parent added
    rw [hchildren, List.mem_append] at hc
    by_cases hparent : parent = p
    · subst hparent
      rw [element, helement parent (element_known hown), hown]
      exact hstruct
    · rw [if_neg hparent] at hc
      have hold : child ∈ g.children p := hc.resolve_right List.not_mem_nil
      rw [element, helement p (hlt hold)]
      exact ih hold
  | setStart start _ ih => exact ih hc
  | @modify g id f keeps _ ih =>
    rw [children_modify] at hc
    have hstruct := ih hc
    obtain ⟨own,hown⟩ : ∃ own, g.element? p = some own := by
      have hp := hlt hc
      exact ⟨_,by rw [element?, Array.getElem?_eq_getElem hp]; rfl⟩
    rw [element, element_modify, hown]
    by_cases hid : id = p
    · subst hid
      have hsame : g.element id = own := by rw [element, hown]; rfl
      rw [hsame] at keeps hstruct
      rw [if_pos rfl]
      exact (agrees_struct keeps).trans hstruct
    · rw [if_neg hid, ← hown]
      exact hstruct

theorem walk_from_succ (g : Grammar) (depth : Nat) (parent : Option ElementId) (id : ElementId) :
    g.walkFrom (depth + 1) parent id =
      (id,parent) :: (g.children id).flatMap (g.walkFrom depth (some id)) := rfl

section
variable {g : Grammar} {depth : Nat} {start : Option ElementId} {t : ElementId}

theorem walk_from_child {p child : ElementId} {r : Option ElementId}
    (h : (p,r) ∈ g.walkFrom depth start t) (hc : child ∈ g.children p) :
    (child,some p) ∈ g.walkFrom (depth + 1) start t := by
  induction depth generalizing start t with
  | zero => cases h
  | succ depth ih =>
    rw [walk_from_succ] at h ⊢
    apply List.mem_cons_of_mem
    rcases List.mem_cons.mp h with heq | h
    · cases heq
      exact List.mem_flatMap.mpr ⟨child,hc,List.mem_cons_self⟩
    · obtain ⟨next,hnext,h⟩ := List.mem_flatMap.mp h
      exact List.mem_flatMap.mpr ⟨next,hnext,ih h⟩

theorem walk_from_mono {depth' : Nat} (hd : depth ≤ depth') {x : ElementId × Option ElementId}
    (h : x ∈ g.walkFrom depth start t) : x ∈ g.walkFrom depth' start t := by
  induction depth generalizing depth' start t with
  | zero => cases h
  | succ depth ih =>
    obtain ⟨depth',rfl⟩ : ∃ more, depth' = more + 1 := ⟨depth' - 1,by omega⟩
    rw [walk_from_succ] at h ⊢
    rcases List.mem_cons.mp h with rfl | h
    · exact List.mem_cons_self
    · obtain ⟨next,hnext,h⟩ := List.mem_flatMap.mp h
      exact List.mem_cons_of_mem _ (List.mem_flatMap.mpr ⟨next,hnext,ih (by omega) h⟩)

theorem walk_from_behind {x : ElementId} {r : Option ElementId}
    (h : (x,r) ∈ g.walkFrom depth start t) :
    (x = t ∧ r = start) ∨ ∃ p q, r = some p ∧ x ∈ g.children p ∧
      List.Sublist [(p,q),(x,r)] (g.walkFrom depth start t) := by
  induction depth generalizing start t with
  | zero => cases h
  | succ depth ih =>
    rw [walk_from_succ] at h ⊢
    rcases List.mem_cons.mp h with heq | h
    · cases heq
      exact .inl ⟨rfl,rfl⟩
    · obtain ⟨next,hnext,hx⟩ := List.mem_flatMap.mp h
      right
      rcases ih hx with ⟨rfl,rfl⟩ | ⟨p,q,rfl,hchild,hbefore⟩
      · exact ⟨t,start,rfl,hnext,.cons_cons _ (List.singleton_sublist.mpr h)⟩
      · have hwithin : List.Sublist (g.walkFrom depth (some t) next)
            ((g.children t).flatMap (g.walkFrom depth (some t))) :=
          List.sublist_flatten_of_mem (List.mem_map_of_mem hnext)
        exact ⟨p,q,rfl,hchild,.cons _ (hbefore.trans hwithin)⟩

theorem walk_from_parent {x : ElementId} {r : Option ElementId}
    (h : (x,r) ∈ g.walkFrom depth start t) :
    (x = t ∧ r = start) ∨
      ∃ p q, r = some p ∧ x ∈ g.children p ∧ (p,q) ∈ g.walkFrom depth start t := by
  refine (walk_from_behind h).imp_right ?_
  rintro ⟨p,q,hr,hx,hbefore⟩
  exact ⟨p,q,hr,hx,hbefore.subset List.mem_cons_self⟩

theorem Rooted.reached (h : Rooted g) {id : Nat} (hid : g.Added id) :
    ∃ t ∈ g.topLevel, ∃ r, (id,r) ∈ g.walkFrom id none t := by
  induction id using Nat.strongRecOn with
  | _ id ih =>
    rcases h.placed hid with htop | ⟨p,hp⟩
    · obtain ⟨depth,rfl⟩ : ∃ n, id = n + 1 := ⟨id - 1,by have := hid.1; omega⟩
      exact ⟨_,htop,none,List.mem_cons_self⟩
    · obtain ⟨hpos,hlt,hsize⟩ := h.below hp
      obtain ⟨t,ht,r,hr⟩ := ih p hlt ⟨hpos,by omega⟩
      exact ⟨t,ht,some p,walk_from_mono hlt (walk_from_child hr hp)⟩

/-- A walk goes forward in the arena. -/
theorem Rooted.forward (h : Rooted g) {start : Option ElementId} {t x : Nat}
    {r : Option ElementId} (hx : (x,r) ∈ g.walkFrom depth start t) : t ≤ x := by
  induction depth generalizing start t with
  | zero => cases hx
  | succ depth ih =>
    rw [walk_from_succ] at hx
    rcases List.mem_cons.mp hx with heq | hx
    · cases heq
      exact Nat.le_refl _
    · obtain ⟨next,hnext,hx⟩ := List.mem_flatMap.mp hx
      have hbelow := h.below hnext
      have hle := ih hx
      omega

def Stands (g : Grammar) (c : Nat) : Option ElementId → Prop
  | none => c ∈ g.topLevel
  | some p => c ∈ g.children p

theorem Rooted.walks_apart (h : Rooted g) (hf : Forest g) {start : Option ElementId}
    {x c c' depth' : Nat} {r r' : Option ElementId} (hc : Stands g c start)
    (hc' : Stands g c' start) (hx : (x,r) ∈ g.walkFrom depth start c)
    (hx' : (x,r') ∈ g.walkFrom depth' start c') : c = c' := by
  have hlone : ∀ {c c' p : Nat} {q depth}, Stands g c start → Stands g c' start →
      c ∈ g.children p → (p,q) ∉ g.walkFrom depth start c' := by
    intro c c' p q depth hc hc' hp hwalk
    cases start with
    | none => exact h.apart hc hp
    | some own =>
      obtain rfl := hf.apart hp hc
      have hle := h.forward hwalk
      have hlt := (h.below hc').2.1
      omega
  induction x using Nat.strongRecOn generalizing r r' with
  | _ x ih =>
    rcases walk_from_parent hx with ⟨rfl,-⟩ | ⟨p,q,-,hp,hwalk⟩ <;>
      rcases walk_from_parent hx' with ⟨rfl,-⟩ | ⟨p',q',-,hp',hwalk'⟩
    · rfl
    · exact absurd hwalk' (hlone hc hc' hp')
    · exact absurd hwalk (hlone hc' hc hp)
    · obtain rfl := hf.apart hp hp'
      exact ih p (h.below hp).2.1 hwalk hwalk'

theorem Rooted.walks_nodup (h : Rooted g) (hf : Forest g) (depth : Nat) {starts : List ElementId}
    {start : Option ElementId} (hs : ∀ c ∈ starts, Stands g c start) (hn : starts.Nodup) :
    ((starts.flatMap (g.walkFrom depth start)).map Prod.fst).Nodup := by
  induction depth generalizing starts start with
  | zero =>
    have hnil : starts.flatMap (g.walkFrom 0 start) = [] :=
      List.flatMap_eq_nil_iff.mpr fun _ _ => rfl
    rw [hnil]
    exact List.nodup_nil
  | succ depth ih =>
    rw [List.map_flatMap, List.nodup_flatMap]
    constructor
    · intro c hc
      rw [walk_from_succ, List.map_cons]
      refine List.nodup_cons.mpr ⟨fun hmem => ?_,ih (fun _ hchild => hchild) (hf.nodup c)⟩
      obtain ⟨⟨x,r⟩,hx,hxc⟩ := List.mem_map.mp hmem
      obtain ⟨next,hnext,hx⟩ := List.mem_flatMap.mp hx
      cases hxc
      exact Nat.lt_irrefl _ (Nat.lt_of_lt_of_le (h.below hnext).2.1 (h.forward hx))
    · apply hn.pairwise_of_forall_ne
      intro c hc c' hc' hne x hx hx'
      obtain ⟨⟨y,r⟩,hwalk,hy⟩ := List.mem_map.mp hx
      obtain ⟨⟨y',r'⟩,hwalk',hy'⟩ := List.mem_map.mp hx'
      obtain rfl : y = y' := hy.trans hy'.symm
      exact hne (h.walks_apart hf (hs c hc) (hs c' hc') hwalk hwalk')

theorem walk_from_push (g : Grammar) (e : Element) (depth : Nat) (start : Option ElementId)
    (t : ElementId) : (g.push e).walkFrom depth start t = g.walkFrom depth start t := by
  induction depth generalizing start t with
  | zero => rfl
  | succ depth ih =>
    rw [walk_from_succ, walk_from_succ, children_push]
    congr 2
    funext child
    exact ih _ child

theorem walk_push (g : Grammar) (e : Element) :
    (g.push e).walk = g.topLevel.flatMap (g.walkFrom (g.size + 1) none) := by
  rw [walk, size_push]
  congr 1
  funext t
  exact walk_from_push g e _ none t

/-- A walk through as many levels as there are elements comes past those that were added, past
each of them once. -/
theorem Rooted.walked (h : Rooted g) (hf : Forest g) (hd : g.size ≤ depth) :
    (∀ id, id ∈ (g.topLevel.flatMap (g.walkFrom depth none)).map Prod.fst ↔ g.Added id) ∧
      ((g.topLevel.flatMap (g.walkFrom depth none)).map Prod.fst).Nodup := by
  refine ⟨fun id => ⟨fun hid => ?_,fun hid => ?_⟩,h.walks_nodup hf _ (fun _ ht => ht) h.distinct⟩
  · obtain ⟨⟨_,r⟩,hwalk,rfl⟩ := List.mem_map.mp hid
    obtain ⟨t,ht,hwalk⟩ := List.mem_flatMap.mp hwalk
    rcases walk_from_parent hwalk with ⟨rfl,-⟩ | ⟨p,q,-,hp,-⟩
    · exact h.top ht
    · exact ⟨Nat.lt_trans (h.below hp).1 (h.below hp).2.1,(h.below hp).2.2⟩
  · obtain ⟨t,ht,r,hr⟩ := h.reached hid
    have hdeep := walk_from_mono (Nat.le_trans (Nat.le_of_lt hid.2) hd) hr
    exact List.mem_map.mpr ⟨(id,r),List.mem_flatMap.mpr ⟨t,ht,hdeep⟩,rfl⟩

theorem Rooted.walk (h : Rooted g) (hf : Forest g) (e : Element) :
    (∀ id, id ∈ (g.push e).walk.map Prod.fst ↔ g.Added id) ∧
      ((g.push e).walk.map Prod.fst).Nodup := by
  rw [walk_push]
  exact h.walked hf (Nat.le_succ _)

end

end ByteGrammar.Grammar
