import ByteGrammar.Proofs.Resolved.Appended
import ByteGrammar.Proofs.Resolved.Derived

/-!
# References that lead nowhere

References are looked up in the grammar with the padding element behind it. So a reference is found
there just if the author's grammar has what it asks for, or if it asks for the place behind the last
element or for the name of the padding. The links of references and scripts are never of these; the
start, the bases of padding elements and the anchors of offsets can be.
-/

set_option autoImplicit false

namespace ByteGrammar

namespace Grammar

def Overruns (g : Grammar) (r : Designator) : Prop :=
  r = .index g.size ∨ r = .name Element.padding.name

instance (g : Grammar) (r : Designator) : Decidable (g.Overruns r) :=
  inferInstanceAs (Decidable (_ ∨ _))

section
variable {authored : Grammar} (hb : authored.Built)

theorem element_arena_last : authored.arena.element authored.size = .padding :=
  push_element_last authored .padding

include hb

/-- A reference leads to the padding only if it asks for that, and finds nothing before. -/
theorem find_arena (r : Designator) : authored.arena.find? r =
    (authored.find? r).or (if authored.Overruns r then some authored.size else none) := by
  obtain ⟨hroot,-⟩ := built_root_kind hb
  have hasks : authored.asksFor .padding r ↔ authored.Overruns r := by
    cases r with
    | index n => simp [asksFor, Overruns]
    | id n => cases n <;> simp [asksFor, Overruns, Element.padding]
    | name name =>
      simp only [asksFor, Overruns, Bool.and_eq_true, bne_iff_ne, beq_iff_eq, reduceCtorEq,
        false_or, Designator.name.injEq]
      exact ⟨fun h => h.2.symm,fun h => ⟨Nat.ne_of_gt hroot,h.symm⟩⟩
  rw [(push_appends authored .padding).find (built_top hb), if_congr hasks rfl rfl]

theorem found_authored {r : Designator} {t : ElementId} (h : authored.arena.find? r = some t)
    (hne : t ≠ authored.size) : authored.find? r = some t := by
  rw [find_arena hb, Option.or_eq_some_iff] at h
  rcases h with h | ⟨-,h⟩
  · exact h
  · split at h
    · exact absurd (Option.some.inj h).symm hne
    · cases h

theorem found_or_overruns {r : Designator} {t : ElementId}
    (h : authored.arena.find? r = some t) :
    authored.find? r = some t ∨
      authored.find? r = none ∧ authored.Overruns r ∧ t = authored.size := by
  rw [find_arena hb, Option.or_eq_some_iff] at h
  refine h.imp_right fun ⟨hnone,h⟩ => ?_
  split at h
  · next hover => exact ⟨hnone,hover,(Option.some.inj h).symm⟩
  · cases h

omit hb in
theorem named_found {g : Grammar} {name : String} {t : Nat} (hroot : t ≠ root) (ht : t < g.size)
    (hname : (g.element t).name = name) : (g.find? (.name name)).isSome := by
  rw [find?, Option.isSome_or, Bool.or_eq_true, List.find?_isSome, List.find?_isSome]
  exact .inr ⟨t,List.mem_range.mpr ht,by simp [hroot, hname]⟩

theorem target_found {id t : Nat} {aim : Aim} {r : Designator}
    (h : authored.arena.findTarget? id aim r = some t)
    (hadmits : aim.admits (authored.arena.element t).kind) :
    t < authored.size ∧ (authored.find? r).isSome := by
  obtain ⟨hroot,hgrammar⟩ := built_root_kind hb
  have hne : t ≠ authored.size := by
    rintro rfl
    rw [element_arena_last] at hadmits
    cases aim <;> cases hadmits
  have hlt : t < authored.arena.size → t < authored.size := by
    rw [size_push]
    omega
  have hother : t < authored.size → t ≠ root := by
    rintro hlt rfl
    rw [element_of_push _ hlt, hgrammar] at hadmits
    cases aim <;> cases hadmits
  have hwanted : ∀ {name : String}, t < authored.size →
      authored.arena.isWanted id aim name t → (authored.find? (.name name)).isSome := by
    intro name hlt hwanted
    simp only [isWanted, Bool.and_eq_true, beq_iff_eq, element_of_push _ hlt] at hwanted
    exact named_found (hother hlt) hlt hwanted.1.2
  have hfound : ∀ {r : Designator}, authored.arena.find? r = some t →
      t < authored.size ∧ (authored.find? r).isSome := by
    intro r hr
    exact ⟨hlt ((hb.contained .padding).find_lt hr),by rw [found_authored hb hr hne]; rfl⟩
  cases r with
  | index n => exact hfound h
  | id n => exact hfound h
  | name name =>
    rw [findTarget?, Option.or_eq_some_iff, Option.or_eq_some_iff] at h
    rcases h with htop | ⟨-,hany | ⟨-,hrest⟩⟩
    · have hknown : t < authored.size := built_top hb (List.mem_of_find?_eq_some htop)
      exact ⟨hknown,hwanted hknown (List.find?_some htop)⟩
    · have hknown := hlt (List.mem_range.mp (List.mem_of_find?_eq_some hany))
      exact ⟨hknown,hwanted hknown (List.find?_some hany)⟩
    · exact hfound (Option.filter_eq_some_iff.mp hrest).1

end

theorem agrees_padding {k : Kind} (h : Kind.padding.agrees k) : k = .padding := by
  cases k with
  | padding => rfl
  | _ => cases h

/-- Where the references of a grammar lead once it is resolved. -/
structure Moored (authored : Grammar) (g : Resolved) : Prop where
  start : ∃ r, authored.start = some r ∧ (authored.find? r = some g.start ∨
    authored.find? r = none ∧ authored.Overruns r ∧ g.start = g.padding)
  /-- Only an element that is padding itself can be based on the padding. -/
  base : ∀ id r, (authored.element id).base = some r → ∃ b, (g.attributesOf id).base = some b ∧
    (authored.find? r = some b ∨ authored.find? r = none ∧ authored.Overruns r ∧
      b = g.padding ∧ g.kind id = .padding)
  /-- References to structures and links to scripts lead to elements of the author's. -/
  link : ∀ id r aim, (authored.element id).link? = some (r,aim) →
    (authored.find? r).isSome ∧ ∃ t < authored.size, (g.attributesOf id).target = some t ∧
      aim.admits (g.kind t)
  anchor : ∀ id, ∀ r ∈ (authored.element id).anchors,
    (authored.find? r).isSome ∨ authored.Overruns r

/-- In a grammar that resolves every reference is found, unless it asks for the padding; and then
it is no link of a reference or of a script. -/
theorem resolved_moored {authored : Grammar} {g : Resolved} (hb : authored.Built)
    (h : authored.resolve = .ok g) : authored.Moored g := by
  obtain ⟨rfl,hlink,-⟩ := resolve_ok h
  obtain ⟨hfaults,⟨start,hstart⟩,-,-,htargets⟩ := (link_faults_nil authored).mp hlink
  have hstates := stated_faults_nil.mp hfaults
  have helement : ∀ {id : Nat}, id < authored.size →
      authored.arena.element id = authored.element id :=
    fun hid => element_of_push authored hid .padding
  have hknown : ∀ {id : Nat}, authored.element id ≠ .grammar "" → id < authored.size := by
    intro id hne
    by_contra hge
    exact hne (element_outside authored id (Nat.le_of_not_lt hge))
  constructor
  · obtain ⟨r,id,hr,hid⟩ := (start_place_iff _).mp ⟨start,hstart⟩
    have heq : authored.link.1.start = id := by
      show (authored.arena.startPlace.toOption).getD root = id
      rw [startPlace, hr]
      simp only [hid]
      rfl
    exact ⟨r,hr,heq ▸ found_or_overruns hb hid⟩
  · intro id r hbase
    have hid : id < authored.size := hknown fun heq => by rw [heq] at hbase; cases hbase
    rw [← helement hid] at hbase
    obtain ⟨b,hfind,hkind⟩ := hstates id r hbase
    have hlinked : (authored.link.1.attributesOf id).base = some b :=
      (link_placed id).2.trans
        ((linked_bases_extend hb hstates).1 id b |>.mpr (.stated hbase hfind))
    refine ⟨b,hlinked,(found_or_overruns hb hfind).imp_right ?_⟩
    rintro ⟨hnone,hover,rfl⟩
    rw [element_arena_last] at hkind
    exact ⟨hnone,hover,rfl,agrees_padding hkind⟩
  · intro id r aim hr
    have hid : id < authored.size := hknown fun heq => by rw [heq] at hr; cases hr
    rw [← helement hid] at hr
    obtain ⟨t,ht⟩ := (target_faults_nil.mp (htargets id (Nat.lt_succ_of_lt hid))).2 r aim hr
    obtain ⟨hfound,hadmits⟩ := follow_ok ht
    obtain ⟨hlt,hsome⟩ := target_found hb hfound hadmits
    exact ⟨hsome,t,hlt,(link_target_eq (Nat.lt_succ_of_lt hid)).trans (target_followed hr ht),
      hadmits⟩
  · intro id r hr
    have hid : id < authored.size := hknown fun heq => by rw [heq] at hr; cases hr
    rw [← helement hid] at hr
    obtain ⟨t,ht⟩ := Option.isSome_iff_exists.mp
      ((target_faults_nil.mp (htargets id (Nat.lt_succ_of_lt hid))).1 r hr)
    rcases found_or_overruns hb ht with hfound | ⟨-,hover,-⟩
    · exact .inl (by rw [hfound]; rfl)
    · exact .inr hover

def moorings (start : Designator) : Grammar :=
  let g := (Grammar.new "moorings").add (Element.struct "record")
  let g := (g.addChildren 1 [Element.structRef "again" (some (.name "record")),
    ((Element.offset "at").withLength (.literal 4)).withReferences (.name "padding"),
    Element.scriptElement "run" (some (.index 5))]).toOption.getD g
  let g := g.add (Element.script "check" "none" "")
  let g := g.add ((Element.struct "wide").withBase (.index 1))
  g.setStart start

theorem moorings_built (start : Designator) : (moorings start).Built :=
  .setStart _ (.add _ (.add _ (.grown (.add _ (.new _)) 1 _)))

theorem moorings_moored : (moorings (.name "wide")).Moored (moorings (.name "wide")).link.1 ∧
    (moorings (.name "wide")).find? (.name "padding") = none :=
  ⟨resolved_moored (moorings_built _) (resolve_sound (by decide +kernel)),by decide +kernel⟩

/-- The place behind the last element is accepted for a start, which then is the padding. -/
theorem start_behind_last : (moorings (.index 7)).find? (.index 7) = none ∧
    ∃ g, (moorings (.index 7)).resolve = .ok g ∧ g.start = 7 ∧ g.padding = 7 :=
  ⟨by decide +kernel,_,resolve_sound (by decide +kernel),by decide +kernel⟩

end Grammar
end ByteGrammar
