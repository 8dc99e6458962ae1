import ByteGrammar.Proofs.Decode.Conformance
import ByteGrammar.Proofs.Decode.Content
import ByteGrammar.Proofs.Decode.TrailingCall

/-!
# Counted repetition

A number in a structure says how often a later member occurs, whose bounds both refer to the name
of the number. The search keeps within what the number says as long as the number stays the last
value of its name, and the counts are checked against it once more at the end.
-/

set_option autoImplicit false

namespace ByteGrammar

open Stepwise DecodeM Source Value

variable {μ : Type}

/-- In a structure of fixed order, `n` is an unsigned number that occurs once, and both bounds of
the later member `e` refer to its name. -/
structure Resolved.CountedIn (g : Resolved) (owner n e : ElementId) : Prop where
  fixed : (g.attributesOf owner).arrangement = .fixed
  number : (g.kind n).isNumber
  unsigned : (g.attributesOf n).signed = false
  least_one : (g.attributesOf n).least = .literal 1
  most_one : (g.attributesOf n).most = .literal 1
  least : (g.attributesOf e).least = .prev (g.element n).name
  most : (g.attributesOf e).most = .prev (g.element n).name
  counter : n ∈ g.membersOf owner
  counted : e ∈ g.membersOf owner
  behind : g.position owner n < g.position owner e

instance (g : Resolved) (owner n e : ElementId) : Decidable (g.CountedIn owner n e) :=
  decidable_of_iff ((g.attributesOf owner).arrangement = .fixed ∧ (g.kind n).isNumber ∧
      (g.attributesOf n).signed = false ∧ (g.attributesOf n).least = .literal 1 ∧
      (g.attributesOf n).most = .literal 1 ∧
      (g.attributesOf e).least = .prev (g.element n).name ∧
      (g.attributesOf e).most = .prev (g.element n).name ∧ n ∈ g.membersOf owner ∧
      e ∈ g.membersOf owner ∧ g.position owner n < g.position owner e)
    ⟨fun ⟨h1,h2,h3,h4,h5,h6,h7,h8,h9,h10⟩ => ⟨h1,h2,h3,h4,h5,h6,h7,h8,h9,h10⟩,
      fun h => ⟨h.fixed,h.number,h.unsigned,h.least_one,h.most_one,h.least,h.most,h.counter,
        h.counted,h.behind⟩⟩

/-- The number says how often the later member occurs: nothing that is read behind the number has
its name, nor is it read again there itself. -/
structure Resolved.Counts (g : Resolved) (owner n e : ElementId) : Prop
    extends g.CountedIn owner n e where
  fresh : ∀ m ∈ g.membersOf owner, g.position owner n < g.position owner m →
    ∀ x, Relation.ReflTransGen g.Encloses m x → (g.element x).name ≠ (g.element n).name

def CountedBy (g : Resolved) (data : Array UInt8) (n e : ElementId) (children : List Value) :
    Prop :=
  ∃ v i, children.filter (fun w => w.element == n) = [v] ∧ v.integer? g data = some i ∧
    (i.value < wordCount 63 → (occurrences e children : Int) = i.value)

def Value.Within (g : Resolved) (v : Value) : Prop :=
  ∀ w ∈ v.preorder, w.element = g.padding ∨ Relation.ReflTransGen g.Encloses v.element w.element

section
variable {g : Resolved} {data : Array UInt8}

theorem within_node {v : Value} (h : ∀ w ∈ v.children, w.Within g ∧
      (w.element = g.padding ∧ w.children = [] ∨ g.Encloses v.element w.element)) :
    v.Within g := by
  intro u hu
  rcases mem_preorder.mp hu with rfl | ⟨w,hw,hu⟩
  · exact .inr .refl
  · obtain ⟨hwithin,⟨hpad,hnone⟩ | hencloses⟩ := h w hw
    · rw [preorder_eq, hnone] at hu
      rw [List.mem_singleton.mp hu]
      exact .inl hpad
    · exact (hwithin u hu).imp_right fun hr => .head hencloses hr

theorem Value.Within.recorded (hg : g.Linked) {v : Value} (h : v.Within g) :
    ∀ w ∈ v.recorded g, Relation.ReflTransGen g.Encloses v.element w.element := by
  intro w hw
  obtain ⟨hmem,hrecorded⟩ := List.mem_filter.mp hw
  refine (h w hmem).resolve_left fun hpad => ?_
  rw [isRecorded, hpad, hg.padding] at hrecorded
  cases hrecorded

theorem unsigned_nonneg {v : Value} {i : MachineInt}
    (hu : (g.attributesOf v.element).signed = false) (h : v.integer? g data = some i) :
    0 ≤ i.value := by
  rw [Value.integer?, hu] at h
  obtain ⟨size,-,rfl⟩ := Option.map_eq_some_iff.mp h
  exact (MachineInt.ofInt size false _).fits.1

end

theorem MachineInt.to_signed_small {i : MachineInt} (h : 0 ≤ i.value)
    (hi : i.value < wordCount 63) : i.toSigned = i.value := by
  have hfits : Fits true 64 i.value := ⟨by omega,hi⟩
  exact wrap_of_fits (by decide) hfits

section
variable {setup : Setup μ} {data : Array UInt8} {frames : List Frame} {id : ElementId}
  {name : String} {σ τ : State μ}

theorem evaluate_previous (hσ : State.Over data σ) {n : Int}
    (h : evaluate setup frames id (.prev name) σ = (.ok n,τ)) :
    ∃ w i, latest? setup.grammar name σ.history = some w ∧
      w.integer? setup.grammar data = some i ∧ n = i.toSigned := by
  obtain ⟨source,heval⟩ := evaluate_ok h
  obtain ⟨w,i,hw,-,hi,hn⟩ := Quantity.previous_in_memory hσ.memory heval
  exact ⟨w,i,hw,hσ.data ▸ hi,hn⟩

theorem bound_previous {α : Type} {bound : Attributes → Quantity} {reading : Int → α} {a : α}
    (hσ : State.Over data σ) (hq : bound (setup.grammar.attributesOf id) = .prev name)
    (h : boundOf setup frames id bound reading σ = (.ok a,τ)) :
    ∃ w i, latest? setup.grammar name σ.history = some w ∧
      w.integer? setup.grammar data = some i ∧ a = reading i.toSigned := by
  rw [boundOf, hq] at h
  obtain ⟨n,ρ,hn,h1⟩ := bind_ok.mp h
  obtain ⟨rfl,-⟩ := pure_ok.mp h1
  obtain ⟨w,i,hw,hi,rfl⟩ := evaluate_previous hσ hn
  exact ⟨w,i,hw,hi,rfl⟩

end

section
variable {setup : Setup μ} {room : Nat} {frames : List Frame} {id : ElementId} {σ τ : State μ}
  {v : Value}

theorem recorded_of_number {k : Kind} (h : k.isNumber) : k.isRecorded := by
  cases k with
  | number settings => rfl
  | _ => cases h

theorem read_element_last (hk : (setup.grammar.kind id).isRecorded)
    (h : readElement setup room frames id σ = (.ok v,τ)) :
    ∃ older, τ.history = v :: older := by
  cases room with
  | zero => cases h
  | succ room =>
    obtain ⟨frame,declared,ρ,υ,-,-,closing⟩ := read_with_kind h
    exact ⟨υ.history,by rw [closing.history, if_pos hk]⟩

/-- What the reader of an element returns is made of what is read inside of it, if what was read
there is so too. -/
theorem reads_within {attempt : ElementId → DecodeM μ Value} {frame : Frame}
    {declared : Option Nat}
    (ih : ∀ {id σ v τ}, attempt id σ = (.ok v,τ) → v.element = id ∧ v.Within setup.grammar)
    (h : Reads setup attempt frame frames id declared σ v τ) :
    v.element = id ∧ v.Within setup.grammar := by
  cases h with
  | leaf simple read kept =>
    refine ⟨read.element,within_node ?_⟩
    rw [read.children]
    exact List.forall_mem_nil _
  | reference kind linked read =>
    rename_i w link target
    obtain ⟨he,hw⟩ := ih read
    refine ⟨rfl,forall_preorder.mpr ⟨.inr .refl,fun child hchild u hu => ?_⟩⟩
    refine ((forall_preorder.mp hw).2 child hchild u hu).imp_right fun hr => ?_
    rw [he] at hr
    exact .head (.inr ⟨link,kind,linked⟩) hr
  | struct kind search gathered =>
    rename_i s ω padding settings
    have hchildren : ∀ w ∈ s.children.toList, w.Within setup.grammar ∧
        w.element ∈ setup.grammar.membersOf id := by
      refine search.preserves (I := fun s _ => ∀ w ∈ s.children.toList,
        w.Within setup.grammar ∧ w.element ∈ setup.grammar.membersOf id) (fun hadv hs => ?_)
        (List.forall_mem_nil _)
      cases hadv with
      | passed same later resumed =>
        rw [same]
        exact hs
      | child hmember hmost open_ hleast hread =>
        obtain ⟨he,hw⟩ := ih hread
        rw [List.getElem?_toArray] at hmember
        rw [accept_children]
        exact List.forall_mem_append.mpr ⟨hs,List.forall_mem_singleton.mpr
          ⟨hw,he ▸ List.mem_of_getElem? hmember⟩⟩
    refine ⟨rfl,within_node (List.forall_mem_append.mpr ⟨fun w hw => ?_,?_⟩)⟩
    · obtain ⟨hwithin,hmember⟩ := hchildren w hw
      exact ⟨hwithin,.inr (.inl hmember)⟩
    · rcases gathered.filled with ⟨rfl,-⟩ | ⟨length,-,-,-,rfl⟩
      · exact List.forall_mem_nil _
      · exact List.forall_mem_singleton.mpr
          ⟨within_node (List.forall_mem_nil _),.inl ⟨rfl,rfl⟩⟩

theorem read_element_within (h : readElement setup room frames id σ = (.ok v,τ)) :
    v.element = id ∧ v.Within setup.grammar :=
  read_element_ok (P := fun _ id _ v _ => v.element = id ∧ v.Within setup.grammar)
    (fun ih _ _ _ _ _ _ _ _ _ _ reads _ => reads_within ih reads) h

/-- Nothing that is read of an element becomes the last value of a name that nothing inside of it
has. -/
theorem read_element_latest (hg : setup.grammar.Linked)
    (h : readElement setup room frames id σ = (.ok v,τ)) {name : String}
    (hname : ∀ x, Relation.ReflTransGen setup.grammar.Encloses id x →
      (setup.grammar.element x).name ≠ name) :
    latest? setup.grammar name τ.history = latest? setup.grammar name σ.history := by
  obtain ⟨he,hw⟩ := read_element_within h
  rw [(read_element_recorded hg h).2.history]
  refine Quantity.latest_append fun w hmem => hname _ ?_
  rw [← he]
  exact hw.recorded hg w (List.mem_reverse.mp hmem)

end

structure Announced (g : Resolved) (data : Array UInt8) (n e : ElementId) (children : List Value)
    (history : List Value) (v : Value) : Prop where
  only : children.filter (fun w => w.element == n) = [v]
  last : latest? g (g.element n).name history = some v
  bound : ∀ i, v.integer? g data = some i → 0 ≤ i.toSigned →
    (occurrences e children : Int) ≤ i.toSigned

structure Counting (g : Resolved) (data : Array UInt8) (owner n e : ElementId) (s : Search)
    (σ : State μ) : Prop where
  tallied : Tallied g owner s
  delivered : State.Over data σ
  announced : 0 < occurrences n s.children.toList →
    ∃ v, Announced g data n e s.children.toList σ.history v

section
variable {setup : Setup μ} {data : Array UInt8} {owner n e : ElementId} {room : Nat}
  {frame : Frame} {frames : List Frame} {s : Search} {σ τ υ : State μ} {v : Value}

theorem occurrences_eq_zero {id : ElementId} {values : List Value}
    (h : ∀ w ∈ values, w.element ≠ id) : occurrences id values = 0 := by
  simpa [occurrences, List.countP_eq_zero] using h

theorem filter_element_nil {id : ElementId} {values : List Value}
    (h : occurrences id values = 0) : values.filter (fun w => w.element == id) = [] := by
  rw [← List.length_eq_zero_iff, ← List.countP_eq_length_filter]
  exact h

theorem member_position {g : Resolved} {m : ElementId} (hn : (g.membersOf owner).Nodup)
    (hm : (g.membersOf owner)[s.index]? = some m) : g.position owner m = s.index := by
  obtain ⟨hlt,rfl⟩ := List.getElem?_eq_some_iff.mp hm
  exact hn.idxOf_getElem _ hlt

theorem Counting.number (hc : setup.grammar.Counts owner n e)
    (h : Counting setup.grammar data owner n e s σ)
    (hplace : setup.grammar.position owner n = s.index)
    (hnone : occurrences n s.children.toList = 0) (hv : v.element = n)
    {older : List Value} (hlast : τ.history = v :: older) :
    Announced setup.grammar data n e (s.children.toList ++ [v]) τ.history v := by
  have hbehind := hc.behind
  have hno : occurrences e (s.children.toList ++ [v]) = 0 := by
    refine occurrences_eq_zero (List.forall_mem_append.mpr ⟨fun w hw he => ?_,?_⟩)
    · have hbefore := (h.tallied.ordered hc.fixed).2 w hw
      rw [he] at hbefore
      omega
    · refine List.forall_mem_singleton.mpr fun he => ?_
      rw [← he, hv] at hbehind
      exact Nat.lt_irrefl _ hbehind
  constructor
  · rw [List.filter_append, filter_element_nil hnone]
    simp [hv]
  · rw [hlast, latest?, List.find?_cons_of_pos]
    rw [hv]
    exact beq_self_eq_true _
  · intro i _ hi
    rw [hno]
    exact hi

theorem Announced.later {g : Resolved} {children history history' : List Value} {w : Value}
    (h : Announced g data n e children history w)
    (hlast : latest? g (g.element n).name history' = latest? g (g.element n).name history)
    (hne : v.element ≠ n)
    (hroom : v.element = e → ∀ i, w.integer? g data = some i → 0 ≤ i.toSigned →
      (occurrences e children : Int) < i.toSigned) :
    Announced g data n e (children ++ [v]) history' w := by
  constructor
  · rw [List.filter_append, h.only]
    simp [hne]
  · rw [hlast, h.last]
  · intro i hi hpos
    rw [occurrences_append]
    by_cases he : v.element = e
    · have hlt := hroom he i hi hpos
      rw [← he, occurrences_self]
      rw [← he] at hlt
      omega
    · rw [occurrences_other he]
      exact h.bound i hi hpos

theorem Counting.behind (hc : setup.grammar.Counts owner n e)
    (h : Counting setup.grammar data owner n e s σ)
    (hsome : 0 < occurrences n s.children.toList) {member : ElementId}
    (hplace : setup.grammar.position owner member = s.index) (hmn : member ≠ n) :
    setup.grammar.position owner n < setup.grammar.position owner member := by
  obtain ⟨u,hu,hun⟩ := List.countP_pos_iff.mp hsome
  have hbefore := (h.tallied.ordered hc.fixed).2 u hu
  rw [eq_of_beq hun] at hbefore
  refine Nat.lt_of_le_of_ne (hplace ▸ hbefore) fun heq => hmn ?_
  exact ((List.idxOf_inj hc.counter).mp heq).symm

/-- While the number is the last value of its name, what it counts is only tried if there is still
one to come. -/
theorem Announced.expects {children : List Value} {w : Value}
    (h : Announced setup.grammar data n e children σ.history w) (hσ : State.Over data σ)
    (hq : (setup.grammar.attributesOf e).most = .prev (setup.grammar.element n).name)
    {most : Option Nat} (hmost : mostCount setup frames e σ = (.ok most,τ))
    (hopen : reached (occurrences e children) most = false) {i : MachineInt}
    (hi : w.integer? setup.grammar data = some i) (hpos : 0 ≤ i.toSigned) :
    (occurrences e children : Int) < i.toSigned := by
  obtain ⟨w',i',hw,hi',hm⟩ := bound_previous hσ hq hmost
  obtain rfl : w = w' := Option.some.inj (h.last.symm.trans hw)
  obtain rfl := Option.some.inj (hi.symm.trans hi')
  rw [hm, if_neg (Int.not_lt.mpr hpos)] at hopen
  simp only [reached, decide_eq_false_iff_not, Nat.not_le] at hopen
  omega

/-- A search goes on within what the number says. -/
theorem Advance.counting (hg : setup.grammar.Linked)
    (hn : (setup.grammar.membersOf owner).Nodup) (hc : setup.grammar.Counts owner n e)
    {s' : Search}
    (hadv : Advance setup (readElement setup room frames)
      (setup.grammar.attributesOf owner).arrangement (setup.grammar.membersOf owner).toArray
      frame frames s σ s' τ)
    (h : Counting setup.grammar data owner n e s σ) :
    Counting setup.grammar data owner n e s' τ := by
  have htallied := hadv.tallied hn (fun hread => (read_element_within hread).1) h.tallied
  cases hadv with
  | passed same later resumed =>
    refine ⟨htallied,h.delivered.later resumed.reader,?_⟩
    rw [same, resumed.history]
    exact h.announced
  | child hmember hmost open_ hleast hread =>
    rename_i ρ υ member most least v
    have hquiet := child_quiet hmost hleast
    have hmoved := h.delivered.moved (frame.start + s.consumed)
    have hυ := hmoved.later hquiet.reader
    have he := (read_element_within hread).1
    refine ⟨htallied,hυ.later ((read_element_reader setup _ _ _).of_run hread).reader,
      fun hsome => ?_⟩
    rw [List.getElem?_toArray] at hmember
    have hplace := member_position hn hmember
    have hcount := h.tallied.counts hmember
    rw [accept_children] at hsome ⊢
    by_cases hmn : member = n
    · -- it occurs once, so this is the first that is read of it
      subst hmn
      rw [most_count_literal hc.most_one (by decide)] at hmost
      cases hmost
      have hnone : occurrences member s.children.toList = 0 := by
        rw [← hcount]
        simpa [reached] using open_
      obtain ⟨older,hlast⟩ := read_element_last (recorded_of_number hc.number) hread
      exact ⟨v,h.number hc hplace hnone he hlast⟩
    · -- if the number was read, this stands behind it and leaves it the last value of its name
      have hother : v.element ≠ n := he ▸ hmn
      rw [occurrences_append, occurrences_other hother, Nat.add_zero] at hsome
      obtain ⟨w,hw⟩ := h.announced hsome
      have hafter := h.behind hc hsome hplace hmn
      have hlatest := read_element_latest hg hread
        (hc.fresh member (List.mem_of_getElem? hmember) hafter)
      rw [hquiet.history] at hlatest
      refine ⟨w,hw.later hlatest hother fun hve i hi hpos => ?_⟩
      rw [he] at hve
      subst hve
      rw [hcount] at open_
      exact hw.expects (σ := σ.moved (frame.start + s.consumed)) hmoved hc.most hmost open_ hi hpos

/-- A search that has come to its end with enough of every member has read the number, and what it
counts just as often as it says. -/
theorem Counting.found (hc : setup.grammar.Counts owner n e)
    (h : Counting setup.grammar data owner n e s σ) {absent : Bool}
    (hchecks : checkCounts setup frames owner absent s 0 (setup.grammar.membersOf owner) σ =
      (.ok ⟨⟩,τ)) : CountedBy setup.grammar data n e s.children.toList := by
  obtain ⟨k,hk⟩ := List.getElem?_of_mem hc.counter
  obtain ⟨j,hj⟩ := List.getElem?_of_mem hc.counted
  obtain ⟨one,ρ,ρ',-,hone,hn⟩ := check_counts_ok hchecks hk
  obtain ⟨least,χ,χ',hχ,hleast,he⟩ := check_counts_ok hchecks hj
  rw [leastCount, bound_literal hc.least_one] at hone
  cases hone
  rw [Nat.zero_add, h.tallied.counts hk] at hn
  rw [Nat.zero_add, h.tallied.counts hj] at he
  obtain ⟨v,hv⟩ := h.announced hn
  obtain ⟨w,i,hw,hi,rfl⟩ := bound_previous (h.delivered.later hχ.reader) hc.least hleast
  rw [hχ.history] at hw
  obtain rfl := Option.some.inj (hv.last.symm.trans hw)
  refine ⟨v,i,hv.only,hi,fun hsmall => ?_⟩
  have hve : v.element = n := by
    have hmem : v ∈ s.children.toList.filter (fun w => w.element == n) := by simp [hv.only]
    simpa using (List.mem_filter.mp hmem).2
  have hpos := unsigned_nonneg (hve ▸ hc.unsigned) hi
  have hsigned := MachineInt.to_signed_small hpos hsmall
  have hle := hv.bound i hi (hsigned ▸ hpos)
  omega

theorem CountedBy.padded {g : Resolved} {children padding : List Value}
    (h : CountedBy g data n e children)
    (hp : ∀ w ∈ padding, w.element ≠ n ∧ w.element ≠ e) :
    CountedBy g data n e (children ++ padding) := by
  obtain ⟨v,i,honly,hi,hcount⟩ := h
  have hn : occurrences n padding = 0 := occurrences_eq_zero fun w hw => (hp w hw).1
  have he : occurrences e padding = 0 := occurrences_eq_zero fun w hw => (hp w hw).2
  refine ⟨v,i,?_,hi,fun hsmall => ?_⟩
  · rw [List.filter_append, honly, filter_element_nil hn, List.append_nil]
  · rw [occurrences_append, he, Nat.add_zero]
    exact hcount hsmall

def AllCounted (g : Resolved) (data : Array UInt8) (owner n e : ElementId) (v : Value) : Prop :=
  ∀ w ∈ v.preorder, g.structure? w.element = some owner → CountedBy g data n e w.children

theorem all_counted_node {g : Resolved}
    (hv : g.structure? v.element = some owner → CountedBy g data n e v.children)
    (hc : ∀ w ∈ v.children, AllCounted g data owner n e w) : AllCounted g data owner n e v :=
  forall_preorder.mpr ⟨hv,hc⟩

/-- The number counts its member in whatever the reader of an element returns, if it does in what
is read inside. -/
theorem read_kind_counted (hg : setup.grammar.Linked)
    (hn : (setup.grammar.membersOf owner).Nodup)
    (hpad : setup.grammar.padding ∉ setup.grammar.membersOf owner)
    (hc : setup.grammar.Counts owner n e)
    (ih : ∀ {id σ v τ}, readElement setup room frames id σ = (.ok v,τ) → State.Over data σ →
      AllCounted setup.grammar data owner n e v) {id : ElementId} {declared : Option Nat}
    (hσ : State.Over data σ)
    (h : readKind setup (readElement setup room frames) frame frames id declared σ = (.ok v,τ)) :
    AllCounted setup.grammar data owner n e v := by
  have ha : KeepsReader (readElement setup room frames) := read_element_reader setup room frames
  rcases read_kind_ok ha h with ⟨simple,read,-⟩ | ⟨kind,linked,read⟩ | ⟨kind,-,-⟩
  · refine all_counted_node (fun hmade => ?_) (by rw [read.children]; exact List.forall_mem_nil _)
    rw [read.element, structure_none_of_leaf simple] at hmade
    cases hmade
  · rename_i w link target
    obtain ⟨hself,hbelow⟩ := forall_preorder.mp (ih read hσ)
    refine all_counted_node (fun hmade => ?_) hbelow
    rw [Resolved.structure?, kind, linked] at hmade
    obtain rfl := Option.some.inj hmade
    apply hself
    rw [(read_element_within read).1]
    exact structure_self (hg.target kind linked)
  · rename_i settings
    rw [readKind, kind] at h
    dsimp only at h
    rw [read_struct_run] at h
    obtain ⟨⟨s,dry⟩,ω,hsearch,hfinish⟩ := bind_ok.mp h
    obtain ⟨χ,padding,hchecks,hpadding,hv,-⟩ := finish_struct_ok hfinish
    have hadvances := search_ok ha hsearch
    have hlabels := padding_labels hpadding
    rw [hv]
    refine all_counted_node (fun hmade => ?_) (List.forall_mem_append.mpr ⟨?_,fun w hw => ?_⟩)
    · rw [Value.spanning, Resolved.structure?, kind] at hmade
      obtain rfl := Option.some.inj hmade
      have hcounting : Counting setup.grammar data id n e s ω :=
        hadvances.preserves (fun hadv hs => hadv.counting hg hn hc hs)
          ⟨start_tallied _ id,hσ,fun hsome => absurd hsome (Nat.lt_irrefl 0)⟩
      refine CountedBy.padded (Counting.found (σ := ω.moved (frame.start + s.consumed)) hc
        ⟨hcounting.tallied,hcounting.delivered.moved _,hcounting.announced⟩ hchecks) fun w hw => ?_
      rw [(hlabels w hw).1]
      exact ⟨fun he => hpad (he ▸ hc.counter),fun he => hpad (he ▸ hc.counted)⟩
    · exact (hadvances.preserves (I := fun s σ => State.Over data σ ∧
        ∀ w ∈ s.children.toList, AllCounted setup.grammar data owner n e w)
        (fun hadv hs => hadv.over ha ih hs) ⟨hσ,List.forall_mem_nil _⟩).2
    · obtain ⟨hlabel,hnone⟩ := hlabels w hw
      refine all_counted_node (fun hmade => ?_) (by rw [hnone]; exact List.forall_mem_nil _)
      rw [hlabel, Resolved.structure?, hg.padding] at hmade
      cases hmade

/-- The number counts its member in whatever is read of an element. -/
theorem read_element_counts (hg : setup.grammar.Linked)
    (hn : (setup.grammar.membersOf owner).Nodup)
    (hpad : setup.grammar.padding ∉ setup.grammar.membersOf owner)
    (hc : setup.grammar.Counts owner n e) {id : ElementId}
    (h : readElement setup room frames id σ = (.ok v,τ)) (hσ : State.Over data σ) :
    AllCounted setup.grammar data owner n e v :=
  read_element_kind
    (P := fun _ _ σ v _ => State.Over data σ → AllCounted setup.grammar data owner n e v)
    (fun ih _ _ _ _ _ _ _ _ _ opening read _ hσ =>
      read_kind_counted hg hn hpad hc ih (hσ.later opening.quiet.reader) read) h hσ

end

/-- In a grammar that resolves, in which no element stands in two places, every node that a
structure makes has one child for the number that counts a later member, and as many children for
that member as the number says, up to the largest signed word of 64 bits. This holds of all nodes
below the root of a decoded source, and of the root itself unless the grammar's own element was
replaced by one for such nodes. -/
theorem decoded_counted {authored : Grammar} {setup : Setup μ} (hf : authored.Forest)
    (hg : authored.resolve = .ok setup.grammar) {owner n e : ElementId}
    (hc : setup.grammar.Counts owner n e) {σ : State μ} (hσ : σ.source.InMemory) :
    (∀ id offset v τ, decodeElement setup id offset σ = (.ok v,τ) →
      AllCounted setup.grammar σ.source.data owner n e v) ∧
    (∀ v τ, decode setup σ = (.ok v,τ) →
      (∀ w ∈ v.children, AllCounted setup.grammar σ.source.data owner n e w) ∧
      (setup.grammar.structure? Grammar.root ≠ some owner →
        AllCounted setup.grammar σ.source.data owner n e v)) := by
  have hl := Grammar.resolve_linked hg
  obtain ⟨hn,hpad⟩ := Grammar.resolve_distinct hf hg owner
  constructor
  · intro id offset v τ h
    obtain ⟨ρ,hρ,hread⟩ := decode_element_ok h
    exact read_element_counts hl hn hpad hc hread (State.Over.later ⟨hσ,rfl⟩ hρ.reader)
  · intro v τ h
    obtain ⟨ρ,hρ,hread⟩ := decode_ok h
    obtain ⟨-,hbelow⟩ := read_root_over
      (Q := AllCounted setup.grammar σ.source.data owner n e)
      (read_element_counts hl hn hpad hc) hread (State.Over.later ⟨hσ,rfl⟩ hρ.reader)
    refine ⟨hbelow,fun hroot => all_counted_node (fun hmade => absurd ?_ hroot) hbelow⟩
    rwa [read_root_element hread] at hmade

def countOf (length : Int) : Element :=
  ((Element.number "count").withLength (.literal length)).withSigned false

def countedByte : Element :=
  (((Element.binary "byte").withLength (.literal 1)).withLeast (.prev "count")).withMost
    (.prev "count")

def countedBytes (length : Int) : Grammar :=
  let g := (Grammar.new "bytes").add (Element.struct "list")
  let g := (g.addChildren 1 [countOf length,countedByte]).toOption.getD g
  g.setStart (.index 1)

theorem counted_bytes_built (length : Int) : (countedBytes length).Built :=
  .setStart _ (.grown (.add _ (.new _)) 1 _)

theorem counted_bytes_counts : (countedBytes 1).link.1.Counts 1 2 3 := by
  have hmembers : (countedBytes 1).link.1.membersOf 1 = [2, 3] ∧
      (countedBytes 1).link.1.membersOf 3 = [] := by decide +kernel
  have htarget : ((countedBytes 1).link.1.attributesOf 3).target = none := by decide +kernel
  refine ⟨by decide +kernel,fun m hm hbehind x hx => ?_⟩
  have hm3 : m = 3 := by
    rw [hmembers.1] at hm
    rcases List.mem_pair.mp hm with rfl | rfl
    · exact absurd hbehind (Nat.lt_irrefl _)
    · rfl
  subst hm3
  rcases hx.cases_head with rfl | ⟨y,hy | ⟨link,-,hy⟩,-⟩
  · decide +kernel
  · rw [hmembers.2] at hy
    cases hy
  · rw [htarget] at hy
    cases hy

theorem two_bytes_counted :
    ∃ v τ, decode (Setup.plain (countedBytes 1))
        (bytesState #[2, 7, 8]) = (.ok v,τ) ∧
      AllCounted (countedBytes 1).link.1 #[2, 7, 8] 1 2 3 v := by
  have hg : (countedBytes 1).resolve = .ok (countedBytes 1).link.1 :=
    Grammar.resolve_sound (by decide +kernel)
  have hroot : (countedBytes 1).link.1.structure? Grammar.root ≠ some 1 := by decide +kernel
  obtain ⟨v,τ,hv⟩ := run_ok
    (r := decode (Setup.plain (countedBytes 1)) (bytesState #[2, 7, 8]))
    (by decide +kernel)
  have hall := (decoded_counted (Grammar.built_forest (counted_bytes_built 1)) hg
    counted_bytes_counts (σ := bytesState #[2, 7, 8]) (of_bytes_in_memory _)).2 v τ hv
  exact ⟨v,τ,hv,hall.2 hroot⟩

def nestedLists : Grammar :=
  let g := (Grammar.new "lists").add (Element.struct "list")
  let g := (g.addChildren 1 [countOf 1,
    (Element.structRef "more" (some (.name "list"))).withLeast (.literal 0),
    countedByte]).toOption.getD g
  g.setStart (.index 1)

def replacedList : Grammar :=
  let g := (Grammar.new "bytes").add ((Element.binary "one").withLength (.literal 1))
  let g := (g.setStart (.index 1)).replace Grammar.root (Element.struct "list")
  (g.addChildren Grammar.root [countOf 1,countedByte]).toOption.getD g

def Value.saysCount (g : Resolved) (data : Array UInt8) (n e : ElementId) (w : Value) : Bool :=
  w.children.any fun v => v.element == n &&
    (v.integer? g data).any fun i => i.value == (occurrences e w.children : Int)

/-- A grammar with a number that is to count a member, and no other element of its name, and bytes
that decode into a tree with a node in which it does not. -/
def Miscounts (authored : Grammar) (data : Array UInt8) (owner n e : ElementId) : Prop :=
  authored.resolve = .ok authored.link.1 ∧ authored.link.1.CountedIn owner n e ∧
    (∀ x < authored.link.1.size, x ≠ n →
      (authored.link.1.element x).name ≠ (authored.link.1.element n).name) ∧
    ∃ v τ, decode (Setup.plain authored) (bytesState data) = (.ok v,τ) ∧
      ∃ w ∈ v.preorder, authored.link.1.structure? w.element = some owner ∧
        w.saysCount authored.link.1 data n e = false

theorem miscounts_of {authored : Grammar} {data : Array UInt8} {owner n e : ElementId}
    (hg : (authored.link.2 ++ authored.link.1.check).isEmpty)
    (hc : authored.link.1.CountedIn owner n e)
    (hn : ∀ x < authored.link.1.size, x ≠ n →
      (authored.link.1.element x).name ≠ (authored.link.1.element n).name)
    (hv : (decode (Setup.plain authored) (bytesState data)).1.toOption.any
      fun v => v.preorder.any fun w => authored.link.1.structure? w.element == some owner &&
        !w.saysCount authored.link.1 data n e) :
    Miscounts authored data owner n e := by
  obtain ⟨v,hrun,hnode⟩ := (Option.any_eq_true _ _).mp hv
  obtain ⟨w,hw,hbad⟩ := List.any_eq_true.mp hnode
  simp only [Bool.and_eq_true, beq_iff_eq, Bool.not_eq_true'] at hbad
  exact ⟨Grammar.resolve_sound hg,hc,hn,v,_,run_of_option hrun,w,hw,hbad⟩

/-- Three lists that do not have as many bytes as they say. A count of eight bytes that no signed
word can hold is negative as one, which is no bound at all: two bytes are enough. Where a list has
another one inside, the bytes of the outer one are as many as the count of the inner one says. And a
root whose own element is a list has a child of another element, and no count. -/
theorem lists_miscounted :
    Miscounts (countedBytes 8) #[0xff, 0xff, 0xff, 0xff, 0xff, 0xff, 0xff, 0xff, 7, 8] 1 2 3 ∧
    Miscounts nestedLists #[1, 0] 1 2 4 ∧ Miscounts replacedList #[7] Grammar.root 2 3 :=
  ⟨miscounts_of (by decide +kernel) (by decide +kernel) (by decide +kernel) (by decide +kernel),
    miscounts_of (by decide +kernel) (by decide +kernel) (by decide +kernel) (by decide +kernel),
    miscounts_of (by decide +kernel) (by decide +kernel) (by decide +kernel) (by decide +kernel)⟩

end ByteGrammar
