import ByteGrammar.Proofs.Resolved.Members

/-!
# How members are merged

The list of a structure is that of its base with its own children put over it by name. Under each
name the last of its own children comes first, or else what comes first in the list of the base,
and the names of the base stay where they are. So one of a structure's own children is lost where
another one of its name follows.
-/

set_option autoImplicit false

namespace ByteGrammar

namespace Grammar

def firstNamed (g : Grammar) (name : String) (members : List ElementId) : Option ElementId :=
  members.find? fun m => (g.element m).name == name

def lastNamed (g : Grammar) (name : String) (members : List ElementId) : Option ElementId :=
  g.firstNamed name members.reverse

def names (g : Grammar) (members : List ElementId) : List String :=
  members.map fun m => (g.element m).name

section
variable (g : Grammar) {name : String} {child m : ElementId}
  {members inherited own : List ElementId}

theorem first_named_cons (name : String) (m : ElementId) (rest : List ElementId) :
    g.firstNamed name (m :: rest) =
      if (g.element m).name = name then some m else g.firstNamed name rest := by
  simp only [firstNamed, List.find?_cons]
  by_cases h : (g.element m).name = name
  · rw [if_pos h, beq_iff_eq.mpr h]
  · rw [if_neg h, beq_eq_false_iff_ne.mpr h]

theorem first_named_name (h : g.firstNamed name members = some m) :
    (g.element m).name = name := by
  simpa using List.find?_some h

theorem first_named_mem (h : g.firstNamed name members = some m) : m ∈ members :=
  List.mem_of_find?_eq_some h

theorem names_get (members : List ElementId) (i : Nat) :
    (g.names members)[i]? = members[i]?.map fun m => (g.element m).name := List.getElem?_map

theorem first_named_iff : g.firstNamed name members = some m ↔ (g.element m).name = name ∧
    ∃ i : Nat, members[i]? = some m ∧ ∀ j < i, (g.names members)[j]? ≠ some name := by
  rw [firstNamed, List.find?_eq_some_iff_getElem, beq_iff_eq]
  refine and_congr_right fun _ => exists_congr fun i => ?_
  rw [List.getElem?_eq_some_iff]
  constructor
  · rintro ⟨hi,hm,hbefore⟩
    refine ⟨⟨hi,hm⟩,fun j hj => ?_⟩
    have hlt : j < members.length := Nat.lt_trans hj hi
    simpa [names_get, List.getElem?_eq_getElem hlt] using hbefore j hj
  · rintro ⟨⟨hi,hm⟩,hbefore⟩
    refine ⟨hi,hm,fun j hj => ?_⟩
    have hlt : j < members.length := Nat.lt_trans hj hi
    simpa [names_get, List.getElem?_eq_getElem hlt] using hbefore j hj

theorem first_named_place (name : String) (child : ElementId) (members : List ElementId) :
    g.firstNamed name (g.placeMember child members) =
      if (g.element child).name = name then some child else g.firstNamed name members := by
  induction members with
  | nil => exact g.first_named_cons name child []
  | cons m rest ih =>
    rw [placeMember]
    by_cases hm : (g.element m).name = (g.element child).name
    · rw [if_pos (beq_iff_eq.mpr hm), first_named_cons, first_named_cons, hm]
      split <;> rfl
    · rw [if_neg (by simpa using hm), first_named_cons, first_named_cons, ih]
      by_cases hname : (g.element m).name = name
      · rw [if_pos hname, if_pos hname, if_neg fun h => hm (hname.trans h.symm)]
      · rw [if_neg hname, if_neg hname]

/-- Under each name the last of the own children comes first, or else what did before. -/
theorem first_named_merge (name : String) (inherited own : List ElementId) :
    g.firstNamed name (g.mergeMembers inherited own) =
      (g.lastNamed name own).or (g.firstNamed name inherited) := by
  induction own generalizing inherited with
  | nil => rfl
  | cons child rest ih =>
    have hsplit : g.lastNamed name (child :: rest) =
        (g.lastNamed name rest).or (g.firstNamed name [child]) := by
      rw [lastNamed, List.reverse_cons, firstNamed, List.find?_append]
      rfl
    rw [mergeMembers, List.foldl_cons, ← mergeMembers, ih, first_named_place, hsplit,
      Option.or_assoc, first_named_cons]
    split <;> rfl

theorem names_place (child : ElementId) (members : List ElementId) :
    g.names (g.placeMember child members) =
      if (g.element child).name ∈ g.names members then g.names members
      else g.names members ++ [(g.element child).name] := by
  induction members with
  | nil => rfl
  | cons m rest ih =>
    have hcons : ∀ m rest, g.names (m :: rest) = (g.element m).name :: g.names rest :=
      fun _ _ => rfl
    rw [placeMember]
    by_cases hm : (g.element m).name = (g.element child).name
    · rw [if_pos (beq_iff_eq.mpr hm), hcons, hcons, hm, if_pos List.mem_cons_self]
    · rw [if_neg (by simpa using hm), hcons, hcons, ih]
      by_cases hrest : (g.element child).name ∈ g.names rest
      · rw [if_pos hrest, if_pos (List.mem_cons_of_mem _ hrest)]
      · rw [if_neg hrest,
          if_neg fun h => (List.mem_cons.mp h).elim (fun h => hm h.symm) hrest]
        rfl

theorem names_merge_prefix (inherited own : List ElementId) :
    g.names inherited <+: g.names (g.mergeMembers inherited own) := by
  induction own generalizing inherited with
  | nil => exact List.prefix_rfl
  | cons child rest ih =>
    refine List.IsPrefix.trans ?_ (ih (g.placeMember child inherited))
    rw [names_place]
    split
    · exact List.prefix_rfl
    · exact List.prefix_append _ _

theorem names_merge (inherited : List ElementId) {own : List ElementId}
    (h : (g.names own).Nodup) :
    g.names (g.mergeMembers inherited own) =
      g.names inherited ++ (g.names own).filter (· ∉ g.names inherited) := by
  induction own generalizing inherited with
  | nil => exact (List.append_nil _).symm
  | cons child rest ih =>
    obtain ⟨hchild,hrest⟩ := List.nodup_cons.mp h
    show g.names (g.mergeMembers (g.placeMember child inherited) rest) =
      g.names inherited ++ ((g.element child).name :: g.names rest).filter (· ∉ g.names inherited)
    rw [ih _ hrest, names_place]
    by_cases hin : (g.element child).name ∈ g.names inherited
    · rw [if_pos hin, List.filter_cons_of_neg (by simpa using hin)]
    · have hfresh : (g.names rest).filter
          (· ∉ g.names inherited ++ [(g.element child).name]) =
          (g.names rest).filter (· ∉ g.names inherited) := by
        refine List.filter_congr fun name hname => ?_
        have hother : name ≠ (g.element child).name := fun he => hchild (by rwa [he] at hname)
        simp [hother]
      rw [if_neg hin, List.filter_cons_of_pos (by simpa using hin), hfresh, List.append_assoc]
      rfl

theorem first_named_loses (hn : members.Nodup)
    (h : g.firstNamed (g.element child).name members = some m) (hm : m ≠ child) :
    m ∉ g.placeMember child members := by
  induction members with
  | nil => cases h
  | cons x rest ih =>
    obtain ⟨hx,hrest⟩ := List.nodup_cons.mp hn
    rw [first_named_cons] at h
    rw [placeMember]
    by_cases hname : (g.element x).name = (g.element child).name
    · rw [if_pos hname] at h
      obtain rfl := Option.some.inj h
      rw [if_pos (beq_iff_eq.mpr hname)]
      exact fun hin => (List.mem_cons.mp hin).elim hm hx
    · rw [if_neg hname] at h
      rw [if_neg (by simpa using hname)]
      intro hin
      rcases List.mem_cons.mp hin with rfl | hin
      · exact hx (g.first_named_mem h)
      · exact ih hrest h hin

theorem placed_first {own : List ElementId} (hi : inherited.Nodup) (ho : own.Nodup)
    (h : ∀ child ∈ own, child ∉ inherited) (hm : m ∈ g.mergeMembers inherited own)
    (hown : m ∈ inherited → g.firstNamed (g.element m).name inherited = some m) :
    g.firstNamed (g.element m).name (g.mergeMembers inherited own) = some m := by
  -- The list grows with each child, so `hown` stands for what earlier children have established.
  induction own generalizing inherited with
  | nil => exact hown hm
  | cons child rest ih =>
    obtain ⟨hchild,hrest⟩ := List.nodup_cons.mp ho
    have hnew : child ∉ inherited := h child List.mem_cons_self
    refine ih (g.place_member_nodup hi hnew) hrest (fun x hx hin => ?_) hm fun hplaced => ?_
    · rcases g.mem_place_member hin with rfl | hin
      · exact hchild hx
      · exact h x (List.mem_cons_of_mem child hx) hin
    · rw [first_named_place]
      rcases g.mem_place_member hplaced with rfl | hold
      · rw [if_pos rfl]
      · have hfirst := hown hold
        rw [if_neg, hfirst]
        intro hname
        refine g.first_named_loses hi (hname ▸ hfirst) ?_ hplaced
        rintro rfl
        exact hnew hold

theorem mem_merge_own (hi : inherited.Nodup) (ho : own.Nodup)
    (h : ∀ child ∈ own, child ∉ inherited) (hm : m ∈ own) :
    m ∈ g.mergeMembers inherited own ↔
      g.lastNamed (g.element m).name own = some m := by
  have hlast : ∃ last, g.lastNamed (g.element m).name own = some last := by
    rw [← Option.isSome_iff_exists, lastNamed, firstNamed, List.find?_isSome]
    exact ⟨m,List.mem_reverse.mpr hm,beq_self_eq_true _⟩
  obtain ⟨last,hlast⟩ := hlast
  have hfirst : g.firstNamed (g.element m).name (g.mergeMembers inherited own) = some last := by
    rw [first_named_merge, hlast]
    rfl
  constructor
  · intro hin
    rw [hlast, ← hfirst]
    exact g.placed_first hi ho h hin fun hold => absurd hold (h m hm)
  · intro hsame
    rw [hlast] at hsame
    obtain rfl := Option.some.inj hsame
    exact g.first_named_mem hfirst

/-- An own child that is kept stands where the base has the first of its name, or behind. -/
theorem merge_place (hlast : g.lastNamed (g.element m).name own = some m) :
    ∃ i : Nat, (g.mergeMembers inherited own)[i]? = some m ∧
      match g.firstNamed (g.element m).name inherited with
      | some replaced => inherited[i]? = some replaced
      | none => inherited.length ≤ i := by
  have hfirst : g.firstNamed (g.element m).name (g.mergeMembers inherited own) = some m := by
    rw [first_named_merge, hlast]
    rfl
  obtain ⟨-,i,hi,hbefore⟩ := g.first_named_iff.mp hfirst
  obtain ⟨added,hadded⟩ := g.names_merge_prefix inherited own
  have hsame : ∀ j < inherited.length,
      (g.names (g.mergeMembers inherited own))[j]? = (g.names inherited)[j]? := by
    intro j hj
    rw [← hadded, List.getElem?_append_left (by rwa [names, List.length_map])]
  refine ⟨i,hi,?_⟩
  rcases Nat.lt_or_ge i inherited.length with hlt | hge
  · have hreplaced : inherited[i]? = some inherited[i] := List.getElem?_eq_getElem hlt
    have hname : (g.element inherited[i]).name = (g.element m).name := by
      have hboth := hsame i hlt
      rw [names_get, names_get, hi, hreplaced] at hboth
      exact (Option.some.inj hboth).symm
    rw [g.first_named_iff.mpr ⟨hname,i,hreplaced,fun j hj => ?_⟩]
    · exact hreplaced
    · rw [← hsame j (Nat.lt_trans hj hlt)]
      exact hbefore j hj
  · cases hnone : g.firstNamed (g.element m).name inherited with
    | none => exact hge
    | some replaced =>
      obtain ⟨hname,j,hj,-⟩ := g.first_named_iff.mp hnone
      have hlt : j < inherited.length := (List.getElem?_eq_some_iff.mp hj).1
      refine absurd ?_ (hbefore j (Nat.lt_of_lt_of_le hlt hge))
      rw [hsame j hlt, names_get, hj, ← hname]
      rfl

theorem first_named_distinct (hn : (g.names members).Nodup) :
    g.firstNamed name members = some m ↔ m ∈ members ∧ (g.element m).name = name := by
  constructor
  · exact fun h => ⟨g.first_named_mem h,g.first_named_name h⟩
  · rintro ⟨hm,hname⟩
    obtain ⟨x,hx⟩ : ∃ x, g.firstNamed name members = some x := by
      rw [← Option.isSome_iff_exists, firstNamed, List.find?_isSome]
      exact ⟨m,hm,beq_iff_eq.mpr hname⟩
    have hsame := (g.first_named_name hx).trans hname.symm
    rw [hx, List.inj_on_of_nodup_map hn (g.first_named_mem hx) hm hsame]

theorem last_named_distinct (hn : (g.names members).Nodup) (name : String) :
    g.lastNamed name members = g.firstNamed name members := by
  have hr : (g.names members.reverse).Nodup := by
    rwa [names, List.map_reverse, List.nodup_reverse]
  ext m
  rw [lastNamed, first_named_distinct g hr, first_named_distinct g hn, List.mem_reverse]

variable {bases : Array (Option ElementId)}

theorem names_members_of_nodup (h : ∀ id, (g.names (g.children id)).Nodup) (steps : Nat)
    (id : ElementId) : (g.names (g.membersOf bases steps id)).Nodup := by
  induction steps generalizing id with
  | zero => exact h id
  | succ steps ih =>
    rw [membersOf]
    cases bases[id]?.join with
    | none => exact h id
    | some base =>
      dsimp only
      rw [g.names_merge _ (h id)]
      refine (ih base).append ((h id).filter _) fun name hold hnew => ?_
      exact absurd hold (by simpa using (List.mem_filter.mp hnew).2)

/-- Elements along bases that do not come back are all different, and those that have a base are
in the table. -/
theorem chain_nodup (hb : Acyclic bases) (steps : Nat) (id : ElementId) :
    (id :: baseChain bases steps id).Nodup := by
  induction steps generalizing id with
  | zero => exact List.nodup_singleton id
  | succ steps ih =>
    refine List.nodup_cons.mpr ⟨hb id (steps + 1),?_⟩
    rw [baseChain]
    cases bases[id]?.join with
    | none => exact List.nodup_nil
    | some base => exact ih base

theorem chain_known {steps : Nat} {id x : Nat}
    (h : x ∈ (id :: baseChain bases steps id).dropLast) : x < bases.size := by
  induction steps generalizing id with
  | zero => cases h
  | succ steps ih =>
    rw [baseChain] at h
    cases hb : bases[id]?.join with
    | none =>
      rw [hb] at h
      cases h
    | some base =>
      rw [hb, List.dropLast_cons_cons] at h
      rcases List.mem_cons.mp h with rfl | h
      · by_contra hge
        rw [Array.getElem?_eq_none (Nat.le_of_not_lt hge)] at hb
        cases hb
      · exact ih h

theorem chain_length_le (hb : Acyclic bases) (steps : Nat) (id : ElementId) :
    (baseChain bases steps id).length ≤ bases.size := by
  have hsub : (id :: baseChain bases steps id).dropLast ⊆ List.range bases.size :=
    fun x hx => List.mem_range.mpr (chain_known hx)
  have hnodup := (chain_nodup hb steps id).sublist (List.dropLast_sublist _)
  have hle := (hnodup.subperm hsub).length_le
  rwa [List.length_range, List.length_dropLast, List.length_cons, Nat.add_sub_cancel] at hle

theorem members_of_more {steps : Nat} {id : ElementId}
    (h : (baseChain bases (steps + 1) id).length ≤ steps) :
    g.membersOf bases (steps + 1) id = g.membersOf bases steps id := by
  induction steps generalizing id with
  | zero =>
    rw [baseChain] at h
    cases hb : bases[id]?.join with
    | none => simp only [membersOf, hb]
    | some base =>
      rw [hb] at h
      cases h
  | succ steps ih =>
    rw [baseChain] at h
    rw [membersOf, membersOf]
    cases hb : bases[id]?.join with
    | none => rfl
    | some base =>
      rw [hb] at h
      dsimp only
      rw [ih (Nat.le_of_succ_le_succ h)]

/-- Without a base an element has its own children, and with one they are put over the members of
that. -/
theorem members_of_base (hb : Acyclic bases) (id : ElementId) :
    g.membersOf bases bases.size id = match bases[id]?.join with
      | none => g.children id
      | some base => g.mergeMembers (g.membersOf bases bases.size base) (g.children id) := by
  rw [← g.members_of_more (chain_length_le hb _ id)]
  cases h : bases[id]?.join <;> simp only [membersOf, h]

end

end Grammar
end ByteGrammar
