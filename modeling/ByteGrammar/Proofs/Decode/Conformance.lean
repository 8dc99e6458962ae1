import ByteGrammar.Proofs.Decode.Shape
import ByteGrammar.Proofs.Resolved.Members

/-!
# The conformance of decoded trees

The nodes that a structure decodes into are made of its members as its grammar says: in their
order, if it is fixed, each as often as stated, and filled up to the stated length. The search of
a structure keeps a tally of its members that never leaves their bounds.
-/

set_option autoImplicit false

namespace ByteGrammar

open Stepwise DecodeM Source Value

variable {μ : Type}

def Value.occurrences (id : ElementId) (values : List Value) : Nat :=
  values.countP fun v => v.element == id

namespace Resolved

def structure? (g : Resolved) (id : ElementId) : Option ElementId :=
  match g.kind id with
  | .struct _ => some id
  | .structRef _ => (g.attributesOf id).target
  | _ => none

def literalBytes? (g : Resolved) (id : ElementId) : Option Nat :=
  match (g.attributesOf id).length with
  | some (.literal n) =>
    match (g.attributesOf id).unit with
    | .byte => some n.toNat
    | .bit => some (n / 8).toNat
  | _ => none

def position (g : Resolved) (owner id : ElementId) : Nat := (g.membersOf owner).idxOf id

end Resolved

/-- A node that is made by the structure `owner`, of a body and what pads it. -/
structure MadeBy (g : Resolved) (owner : ElementId) (v : Value) (body padding : List Value) :
    Prop where
  children : v.children = body ++ padding
  members : ∀ w ∈ body, w.element ∈ g.membersOf owner
  padding : padding = [] ∨ (g.attributesOf owner).length.isSome ∧
    ∃ place n, 0 < n ∧ padding = [Value.leaf g.padding place n]
  ordered : (g.attributesOf owner).arrangement = .fixed →
    (body.map fun w => g.position owner w.element).Pairwise (· ≤ ·)
  least : ∀ m ∈ g.membersOf owner, ∀ n : Int, (g.attributesOf m).least = .literal n →
    n.toNat ≤ occurrences m v.children
  most : ∀ m ∈ g.membersOf owner, ∀ n : Int, (g.attributesOf m).most = .literal n → 0 ≤ n →
    occurrences m v.children ≤ n.toNat
  length : ∀ n ∈ g.literalBytes? owner, v.length = n

/-- A node that conforms to its grammar: one of a structure is made by it, and a leaf that needs a
length has the one stated. -/
structure Conforms (g : Resolved) (v : Value) : Prop where
  made : ∀ owner ∈ g.structure? v.element, ∃ body padding, MadeBy g owner v body padding
  length : g.needsLength v.element → ∀ n ∈ g.literalBytes? v.element, v.length = n

section
variable {setup : Setup μ} {frames : List Frame} {id : ElementId} {σ ρ : State μ}
  {frame : Frame} {declared : Option Nat}

theorem Opening.literal (h : Opening setup frames id σ frame declared ρ) {n : Nat}
    (hn : n ∈ setup.grammar.literalBytes? id) : declared = some n := by
  obtain ⟨ρ',hlength⟩ := h.length
  unfold Resolved.literalBytes? at hn
  cases hq : (setup.grammar.attributesOf id).length with
  | none =>
    rw [hq] at hn
    cases hn
  | some q =>
    obtain ⟨k,u,bytes,hk,hbytes,rfl⟩ := byte_length_ok hq hlength
    have hb := bytes_of_ok hbytes
    rw [hq] at hn
    cases q with
    | literal m =>
      rw [evaluate_literal] at hk
      cases hk
      cases hu : (setup.grammar.attributesOf id).unit with
      | byte =>
        rw [hu] at hn hb
        cases hn
        dsimp only at hb
        rw [show k.toNat = bytes by omega]
      | bit =>
        rw [hu] at hn hb
        cases hn
        dsimp only at hb
        rw [show (k / 8).toNat = bytes by omega]
    | _ => cases hn

theorem Opening.stated (h : Opening setup frames id σ frame declared ρ)
    (hd : declared.isSome) : (setup.grammar.attributesOf id).length.isSome := by
  obtain ⟨ρ',hlength⟩ := h.length
  cases hq : (setup.grammar.attributesOf id).length with
  | some q => rfl
  | none =>
    rw [byte_length_none hq] at hlength
    cases hlength
    cases hd

theorem Opening.finish_le (h : Opening setup frames id σ frame declared ρ) {n : Nat}
    (hn : n ∈ declared) : frame.finish ≤ frame.start + n := by
  rw [h.frame, Option.mem_def.mp hn]
  simp only [Frame.opened]
  omega

end

theorem occurrences_append (id : ElementId) (values rest : List Value) :
    occurrences id (values ++ rest) = occurrences id values + occurrences id rest :=
  List.countP_append

theorem occurrences_self (v : Value) : occurrences v.element [v] = 1 := by
  simp [occurrences]

theorem occurrences_other {id : ElementId} {v : Value} (h : v.element ≠ id) :
    occurrences id [v] = 0 := by
  simp [occurrences, h]

structure Tallied (g : Resolved) (owner : ElementId) (s : Search) : Prop where
  size : s.counts.size = (g.membersOf owner).length
  members : ∀ w ∈ s.children.toList, w.element ∈ g.membersOf owner
  counts : ∀ {i m}, (g.membersOf owner)[i]? = some m → s.count i = occurrences m s.children.toList
  most : ∀ m ∈ g.membersOf owner, ∀ n : Int, (g.attributesOf m).most = .literal n → 0 ≤ n →
    occurrences m s.children.toList ≤ n.toNat
  ordered : (g.attributesOf owner).arrangement = .fixed →
    (s.children.toList.map fun w => g.position owner w.element).Pairwise (· ≤ ·) ∧
      ∀ w ∈ s.children.toList, g.position owner w.element ≤ s.index

section
variable {g : Resolved} {owner m : ElementId} {s : Search} {v : Value}

theorem start_tallied (g : Resolved) (owner : ElementId) :
    Tallied g owner (Search.start (g.membersOf owner)) := by
  refine ⟨Array.size_replicate,nofun,fun {i m} _ => ?_,fun _ _ _ _ _ => Nat.zero_le _,
    fun _ => ⟨List.Pairwise.nil,nofun⟩⟩
  show (Array.replicate _ 0).getD i 0 = 0
  rw [Array.getD_eq_getD_getElem?, Array.getElem?_replicate]
  split <;> rfl

theorem Tallied.passed (h : Tallied g owner s) {index : Nat} (hi : s.index ≤ index) :
    Tallied g owner { s with index } :=
  ⟨h.size,h.members,h.counts,h.most,fun ho => ⟨(h.ordered ho).1,fun w hw =>
    Nat.le_trans ((h.ordered ho).2 w hw) hi⟩⟩

theorem accept_index (s : Search) (least : Nat) (v : Value) :
    s.index ≤ (s.accept .fixed least v).index := by
  simp only [Search.accept]
  split
  · exact Nat.le_succ _
  · exact Nat.le_refl _

theorem Tallied.accept_counts (h : Tallied g owner s) (hn : (g.membersOf owner).Nodup)
    (hv : (g.membersOf owner)[s.index]? = some v.element) (arrangement : Arrangement)
    (least : Nat) {i : Nat} (hi : (g.membersOf owner)[i]? = some m) :
    (s.accept arrangement least v).count i =
      occurrences m (s.accept arrangement least v).children.toList := by
  have hlt := (List.getElem?_eq_some_iff.mp hv).1
  rw [accept_count (h.size ▸ hlt), accept_children, occurrences_append, h.counts hi]
  by_cases hs : s.index = i
  · rw [if_pos hs]
    rw [← hs, hv] at hi
    rw [← Option.some.inj hi, occurrences_self]
  · have hne : v.element ≠ m := by
      rintro rfl
      exact hs ((List.getElem?_inj hlt hn).mp (hv.trans hi.symm))
    rw [if_neg hs, occurrences_other hne, Nat.add_zero]

theorem Tallied.accept_ordered (h : Tallied g owner s) (hn : (g.membersOf owner).Nodup)
    (hv : (g.membersOf owner)[s.index]? = some v.element)
    (ho : (g.attributesOf owner).arrangement = .fixed) (least : Nat) :
    ((s.accept .fixed least v).children.toList.map
        fun w => g.position owner w.element).Pairwise (· ≤ ·) ∧
      ∀ w ∈ (s.accept .fixed least v).children.toList,
        g.position owner w.element ≤ (s.accept .fixed least v).index := by
  obtain ⟨hpairs,hbelow⟩ := h.ordered ho
  obtain ⟨hlt,hget⟩ := List.getElem?_eq_some_iff.mp hv
  have hposition : g.position owner v.element = s.index := by
    rw [Resolved.position, ← hget]
    exact hn.idxOf_getElem _ hlt
  have hall : ∀ w ∈ s.children.toList ++ [v], g.position owner w.element ≤ s.index :=
    List.forall_mem_append.mpr ⟨hbelow,List.forall_mem_singleton.mpr hposition.le⟩
  rw [accept_children]
  constructor
  · rw [List.map_append, List.pairwise_append]
    refine ⟨hpairs,List.pairwise_singleton _ _,?_⟩
    intro i hi j hj
    obtain ⟨w,hw,rfl⟩ := List.mem_map.mp hi
    obtain rfl := List.mem_singleton.mp hj
    exact (hbelow w hw).trans_eq hposition.symm
  · intro w hw
    exact (hall w hw).trans (accept_index s least v)

theorem Tallied.accept (h : Tallied g owner s) (hn : (g.membersOf owner).Nodup)
    (hv : (g.membersOf owner)[s.index]? = some v.element)
    (room : ∀ n : Int, (g.attributesOf v.element).most = .literal n → 0 ≤ n →
      s.count s.index < n.toNat) (least : Nat) :
    Tallied g owner (s.accept (g.attributesOf owner).arrangement least v) := by
  refine ⟨Array.size_setIfInBounds.trans h.size,?_,
    fun hi => h.accept_counts hn hv _ least hi,?_,fun ho => ?_⟩
  · rw [accept_children]
    exact List.forall_mem_append.mpr
      ⟨h.members,List.forall_mem_singleton.mpr (List.mem_of_getElem? hv)⟩
  · intro m hmem n hmost hpos
    have hle := h.most m hmem n hmost hpos
    rw [accept_children, occurrences_append]
    by_cases hs : v.element = m
    · subst hs
      have hroom := room n hmost hpos
      rw [h.counts hv] at hroom
      rw [occurrences_self]
      exact hroom
    · rw [occurrences_other hs]
      exact hle
  · rw [ho]
    exact h.accept_ordered hn hv ho least

end

section
variable {setup : Setup μ} {attempt : ElementId → DecodeM μ Value} {frame : Frame}
  {frames : List Frame} {id : ElementId}

/-- A search goes on within the bounds of its members. -/
theorem Advance.tallied (hnodup : (setup.grammar.membersOf id).Nodup)
    (ih : ∀ {id σ v τ}, attempt id σ = (.ok v,τ) → v.element = id) {s s' : Search}
    {σ τ : State μ}
    (h : Advance setup attempt (setup.grammar.attributesOf id).arrangement
      (setup.grammar.membersOf id).toArray frame frames s σ s' τ)
    (hs : Tallied setup.grammar id s) : Tallied setup.grammar id s' := by
  cases h with
  | passed same later resumed =>
    rw [same]
    exact hs.passed later
  | child hmember hmost room hleast hread =>
    rename_i ρ υ member most least v
    obtain rfl := ih hread
    refine hs.accept hnodup ?_ (fun n hn hpos => ?_) least
    · rwa [List.getElem?_toArray] at hmember
    · rw [most_count_literal hn hpos] at hmost
      cases hmost
      simpa [reached] using room

theorem occurrences_padding {s : Search} {ω υ : State μ}
    {declared : Option Nat} {padding : List Value}
    (h : Gathered setup frame frames id declared s ω padding υ) {m : ElementId}
    (hm : m ≠ setup.grammar.padding) :
    occurrences m (s.children.toList ++ padding) = occurrences m s.children.toList := by
  rw [occurrences_append]
  rcases h.filled with ⟨rfl,-⟩ | ⟨length,-,-,-,rfl⟩
  · rfl
  · rw [occurrences_other hm.symm, Nat.add_zero]

theorem gathered_length {σ ρ ω υ : State μ} {outer : List Frame} {declared : Option Nat}
    {s : Search} {padding : List Value} (opening : Opening setup outer id σ frame declared ρ)
    (filled : Filled frame s)
    (h : Gathered setup frame frames id declared s ω padding υ) {n : Nat}
    (hn : n ∈ setup.grammar.literalBytes? id) :
    totalLength (s.children.toList ++ padding) = n := by
  have hd := opening.literal hn
  have hfinish := opening.finish_le (Option.mem_def.mpr hd)
  have hinside := filled.inside
  rcases h.filled with ⟨rfl,hle⟩ | ⟨length,hlength,hlt,-,rfl⟩
  · have hn := hle n (Option.mem_def.mpr hd)
    have hbody := tiles_length filled.tiles
    rw [List.append_nil]
    omega
  · obtain rfl : length = n := Option.some.inj (hlength.symm.trans hd)
    have hbody := tiles_length (tiles_snoc filled.tiles
      (v := Value.leaf setup.grammar.padding _ (length - s.consumed)) rfl)
    simp only [Value.finish, Value.leaf] at hbody
    simp only [Value.leaf]
    omega

theorem made_by_gathered (hg : setup.grammar.Assembled) {σ ρ ω υ : State μ}
    {outer : List Frame} {declared : Option Nat} {s : Search} {padding : List Value}
    (opening : Opening setup outer id σ frame declared ρ)
    (filled : Filled frame s) (tallied : Tallied setup.grammar id s)
    (h : Gathered setup frame frames id declared s ω padding υ) :
    MadeBy setup.grammar id (Value.spanning id frame.start (s.children.toList ++ padding))
      s.children.toList padding := by
  have hpadding : ∀ m ∈ setup.grammar.membersOf id, m ≠ setup.grammar.padding := by
    rintro m hm rfl
    exact hg.padding id hm
  refine ⟨rfl,tallied.members,?_,fun ho => (tallied.ordered ho).1,fun m hm n hn => ?_,
    fun m hm n hn hpos => ?_,fun n hn => gathered_length opening filled h hn⟩
  · rcases h.filled with ⟨rfl,-⟩ | ⟨length,hlength,hlt,-,rfl⟩
    · exact .inl rfl
    · exact .inr ⟨opening.stated (by rw [hlength]; rfl),_,_,Nat.sub_pos_of_lt hlt,rfl⟩
  · obtain ⟨i,hi⟩ := List.getElem?_of_mem hm
    obtain ⟨least,σ',τ',hleast,hle⟩ := h.least hi
    rw [leastCount, bound_literal hn] at hleast
    cases hleast
    rw [tallied.counts hi] at hle
    exact hle.trans_eq (occurrences_padding h (hpadding m hm)).symm
  · exact (occurrences_padding h (hpadding m hm)).trans_le (tallied.most m hm n hn hpos)

end

section
variable {setup : Setup μ}

theorem conforms_preorder {g : Resolved} {v : Value} (hv : Conforms g v)
    (hc : ∀ w ∈ v.children, ∀ u ∈ w.preorder, Conforms g u) : ∀ u ∈ v.preorder, Conforms g u :=
  forall_preorder.mpr ⟨hv,hc⟩

theorem structure_self {g : Resolved} {id : ElementId} (h : (g.kind id).isStruct) :
    g.structure? id = some id := by
  unfold Resolved.structure?
  cases hk : g.kind id <;> first | rfl | (rw [hk] at h; cases h)

theorem MadeBy.relabelled {g : Resolved} {owner : ElementId} {v : Value}
    {body padding : List Value} (h : MadeBy g owner v body padding) (id : ElementId) :
    MadeBy g owner { v with element := id } body padding :=
  ⟨h.children,h.members,h.padding,h.ordered,h.least,h.most,h.length⟩

theorem structure_none_of_leaf {g : Resolved} {id : ElementId} (h : (g.kind id).isLeaf) :
    g.structure? id = none := by
  unfold Resolved.structure?
  cases hk : g.kind id <;> first | rfl | (rw [hk] at h; cases h)

theorem conforms_plain {g : Resolved} {v : Value}
    (hk : g.kind v.element = .padding ∨ g.kind v.element = .grammar) : Conforms g v := by
  have hmade : g.structure? v.element = none := by
    rcases hk with hk | hk <;> rw [Resolved.structure?, hk]
  have hneeds : g.needsLength v.element = false := by
    rcases hk with hk | hk <;> rw [Resolved.needsLength, hk]
  refine ⟨fun owner howner => ?_,fun h => ?_⟩
  · rw [hmade] at howner
    cases howner
  · rw [hneeds] at h
    cases h

theorem padding_conforms (hg : setup.grammar.Linked) {frame : Frame} {frames : List Frame}
    {id : ElementId} {declared : Option Nat} {s : Search} {ω υ : State μ} {padding : List Value}
    (h : Gathered setup frame frames id declared s ω padding υ) :
    ∀ w ∈ padding, ∀ u ∈ w.preorder, Conforms setup.grammar u :=
  h.forall_padding fun w hw => conforms_plain (.inl (by rw [hw, hg.padding]))

theorem reads_conform (hg : setup.grammar.Linked) (ha : setup.grammar.Assembled)
    {attempt : ElementId → DecodeM μ Value} {outer frames : List Frame} {frame : Frame}
    {id : ElementId} {declared : Option Nat} {σ ρ υ : State μ} {v : Value}
    (ih : ∀ {id σ v τ}, attempt id σ = (.ok v,τ) →
      Placed setup.grammar id σ.source.position frame.finish v ∧
        ∀ w ∈ v.preorder, Conforms setup.grammar w)
    (opening : Opening setup outer id σ frame declared ρ)
    (h : Reads setup attempt frame frames id declared ρ v υ) :
    ∀ w ∈ v.preorder, Conforms setup.grammar w := by
  cases h with
  | leaf simple read kept =>
    refine forall_preorder_leaf ⟨fun owner howner => ?_,fun hneeds n hn => ?_⟩ read.children
    · rw [read.element, structure_none_of_leaf simple] at howner
      cases howner
    · rw [read.element] at hneeds hn
      exact Option.some.inj ((read.declared hneeds).symm.trans (opening.literal hn))
  | reference kind linked read =>
    rename_i w link target
    obtain ⟨hplaced,hconform⟩ := ih read
    obtain ⟨hself,hbelow⟩ := forall_preorder.mp hconform
    refine conforms_preorder (v := { w with element := id }) ⟨fun owner howner => ?_,?_⟩ hbelow
    · rw [Resolved.structure?, kind, linked] at howner
      cases howner
      have htarget : setup.grammar.structure? w.element = some target := by
        rw [hplaced.element]
        exact structure_self (hg.target kind linked)
      obtain ⟨body,padding,hmade⟩ := hself.made target htarget
      exact ⟨body,padding,hmade.relabelled id⟩
    · intro hneeds
      rw [Resolved.needsLength, kind] at hneeds
      cases hneeds
  | struct kind search gathered =>
    rename_i s ω padding settings
    obtain ⟨hstart,hle,-⟩ := opening.bounds
    have hfilled : Filled frame s :=
      search.preserves (I := fun s _ => Filled frame s)
        (fun hadv hs => hadv.filled (fun hread => (ih hread).1) hs) (start_filled _ hle)
    have htallied : Tallied setup.grammar id s :=
      search.preserves (I := fun s _ => Tallied setup.grammar id s)
        (fun hadv hs => hadv.tallied (ha.nodup id) (fun hread => (ih hread).1.element) hs)
        (start_tallied _ id)
    have hconform : ∀ w ∈ s.children.toList, ∀ u ∈ w.preorder, Conforms setup.grammar u :=
      search.forall_children (fun hread => (ih hread).2) (List.forall_mem_nil _)
    refine conforms_preorder ⟨fun owner howner => ?_,fun hneeds => ?_⟩
      (List.forall_mem_append.mpr ⟨hconform,padding_conforms hg gathered⟩)
    · rw [Value.spanning, Resolved.structure?, kind] at howner
      cases howner
      exact ⟨_,_,made_by_gathered ha opening hfilled htallied gathered⟩
    · rw [Value.spanning, Resolved.needsLength, kind] at hneeds
      cases hneeds

/-- Every node of what is read conforms to the grammar. -/
theorem read_element_conforms (hg : setup.grammar.Linked) (ha : setup.grammar.Assembled)
    {room : Nat} {frames : List Frame} {id : ElementId} {σ τ : State μ} {v : Value}
    (h : readElement setup room frames id σ = (.ok v,τ)) :
    ∀ w ∈ v.preorder, Conforms setup.grammar w := by
  refine read_element_ok (P := fun _ _ _ v _ => ∀ w ∈ v.preorder, Conforms setup.grammar w)
    (fun ih => ?_) h
  intro frames frame id declared σ ρ υ τ v opening reads closing
  exact reads_conform hg ha (fun hread => ⟨(read_element_placed hg hread).1,ih hread⟩) opening
    reads

end

/-- Every node of a tree that is decoded conforms to the grammar, if the grammar was built and
resolves. -/
theorem decoded_conforms {authored : Grammar} {setup : Setup μ} (hb : authored.Built)
    (hg : authored.resolve = .ok setup.grammar) (σ : State μ) :
    (∀ v τ, decode setup σ = (.ok v,τ) → ∀ w ∈ v.preorder, Conforms setup.grammar w) ∧
    (∀ id offset v τ, decodeElement setup id offset σ = (.ok v,τ) →
      ∀ w ∈ v.preorder, Conforms setup.grammar w) := by
  have hl := Grammar.resolve_linked hg
  have ha := Grammar.resolve_assembled hb hg
  constructor
  · intro v τ h
    obtain ⟨ρ,-,hread⟩ := decode_ok h
    obtain ⟨ρ',most,children,consumed,υ,-,hrounds,rfl,-⟩ := read_root_ok hread
    exact conforms_preorder (conforms_plain (.inr ha.root))
      (hrounds.forall_children (fun hread => read_element_conforms hl ha hread)
        (List.forall_mem_nil _))
  · intro id offset v τ h
    obtain ⟨ρ,-,hread⟩ := decode_element_ok h
    exact read_element_conforms hl ha hread

def records : Grammar :=
  let g := (Grammar.new "records").add ((Element.struct "record").withLength (.literal 4))
  let g := (g.addChildren 1 [(Element.number "tag").withLength (.literal 1),
    ((Element.binary "part").withLength (.literal 1)).withMost (.literal 2)]).toOption.getD g
  (g.add ((Element.structRef "item" (some (.name "record"))).withMost .unlimited)).setStart
    (.index 4)

theorem records_built : records.Built :=
  .setStart _ (.add _ ((Grammar.Built.add _ (.new _)).grown 1 _))

theorem records_conform :
    ∃ v τ, decode (Setup.plain records) (bytesState #[1, 2, 3, 0, 4, 5]) =
        (.ok v,τ) ∧ ∀ w ∈ v.preorder, Conforms records.link.1 w := by
  have hg : records.resolve = .ok records.link.1 := Grammar.resolve_sound (by decide +kernel)
  obtain ⟨v,τ,hv⟩ := run_ok
    (r := decode (Setup.plain records) (bytesState #[1, 2, 3, 0, 4, 5]))
    (by decide +kernel)
  exact ⟨v,τ,hv,(decoded_conforms records_built hg (bytesState #[1, 2, 3, 0, 4, 5])).1 v τ hv⟩

end ByteGrammar
