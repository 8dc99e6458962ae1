import ByteGrammar.Proofs.Decode.CallSites
import ByteGrammar.Proofs.Decode.Remaining
import ByteGrammar.Proofs.Decode.Tally

/-!
# Structures that end in a call

A structure takes one more child, which runs a script. Without a runtime, the value of the structure
gains a child of no bytes and is otherwise the same, but for the label of the padding, as long as
the search comes to the call.
-/

set_option autoImplicit false

namespace ByteGrammar

open Stepwise DecodeM

variable {μ : Type}

def Resolved.Encloses (g : Resolved) (id inner : Nat) : Prop :=
  inner ∈ g.membersOf id ∨
    ∃ link, g.kind id = .structRef link ∧ (g.attributesOf id).target = some inner

/-- A structure stands in another grammar with a call behind the members that it had. -/
structure Resolved.EndsInCall (ρ : Nat → Nat) (g g' : Resolved) (A : Nat → Prop) (s n : Nat) :
    Prop extends g.Copied ρ g' A where
  root : ρ Grammar.root = Grammar.root
  struct : (g.kind s).isStruct
  inside : s < g.size
  own : ∀ m ∈ g.membersOf s, A m
  members_called : g'.membersOf (ρ s) = (g.membersOf s).map ρ ++ [n]
  call : g'.RunsOnce n

def structSearch (setup : Setup μ) (attempt : ElementId → DecodeM μ Value) (frame : Frame)
    (frames : List Frame) (id : ElementId) : DecodeM μ (Search × Bool) := do
  let members := (setup.grammar.membersOf id).toArray
  let steps ← searchSteps setup members
  search setup attempt (setup.grammar.attributesOf id).arrangement members frame frames steps
    (Search.start (setup.grammar.membersOf id))

def searchOf (setup : Setup μ) (id : ElementId) (offset : Nat) : DecodeM μ (Search × Bool) := do
  reset setup
  let length ← sourceLength
  seekTo offset
  let frames : List Frame := [⟨Grammar.root, 0, length⟩]
  let (frame, _) ← opening setup frames id
  structSearch setup (readElement setup (setup.options.maxDepth - 2) (frame :: frames)) frame
    (frame :: frames) id

section
variable {setup : Setup μ} {g' : Resolved} {ρ : Nat → Nat} {A : Nat → Prop} {s n : Nat}
  (hc : setup.grammar.EndsInCall ρ g' A s n) {frame : Frame} {frames : List Frame}

include hc

theorem Resolved.EndsInCall.counted {absent : Bool} {found found' : Search} {surplus : Nat}
    (hcount : ∀ i < (setup.grammar.membersOf s).length, found'.count i = found.count i)
    {σ σ' τ : State μ} (hst : State.Relabelled ρ surplus σ τ)
    (h : checkCounts setup frames s absent found 0 (setup.grammar.membersOf s) σ = (.ok ⟨⟩,σ'))
    (absent' : Bool) : ∃ τ', State.Relabelled ρ surplus σ' τ' ∧
      checkCounts (setup.over g') (frames.map (Frame.relabelled ρ)) (ρ s) absent' found' 0
        ((setup.over g').grammar.membersOf (ρ s)) τ =
      if found'.count (setup.grammar.membersOf s).length < 1 then
        (.error (if absent' then .eof else .tooFew (setup.grammar.label s) (g'.label n)
          (found'.count (setup.grammar.membersOf s).length) 1),τ')
      else (.ok ⟨⟩,τ') := by
  have hknown : ∀ m ∈ setup.grammar.membersOf s, m < setup.grammar.size :=
    fun m hm => hc.known (hc.own m hm)
  have hcall : (setup.over g').grammar.RunsOnce n := hc.call
  have hmembers : (setup.over g').grammar.membersOf (ρ s) =
      (setup.grammar.membersOf s).map ρ ++ [n] := hc.members_called
  have hlabel : (setup.over g').grammar.label (ρ s) = setup.grammar.label s :=
    hc.moves.label hc.inside
  obtain ⟨τ',hown,hst'⟩ := (check_counts_concurs hc.moves frames hc.inside absent' 0 hknown
    fun i hi => hcount i (by omega)).ok hst (check_counts_absent h absent')
  refine ⟨τ',hst',?_⟩
  rw [hmembers, check_counts_append, bind_run, hown]
  dsimp only
  rw [hcall.checked, hlabel, List.length_map, Nat.zero_add]
  rfl

variable {declared : Option Nat} {found : Search} {ω υ τ : State μ} {v : Value}

theorem Resolved.EndsInCall.finish_called
    (h : finishStruct setup frame frames s declared (found,false) ω = (.ok v,υ)) {found' : Search}
    (hcalled : found.Called ρ n (frame.start + found.consumed)
      (setup.grammar.membersOf s).length found')
    (hst : State.Relabelled ρ 1 (ω.moved (frame.start + found.consumed)) τ) :
    ∃ padding υ', v = Value.spanning s frame.start (found.children.toList ++ padding) ∧
      (∀ w ∈ padding, w.element = setup.grammar.padding) ∧
      finishStruct (setup.over g') (frame.relabelled ρ) (frames.map (Frame.relabelled ρ)) (ρ s)
        declared (found',false) τ =
        (.ok (Value.spanning (ρ s) frame.start (found.children.toList.map (Value.relabelled ρ) ++
          Value.leaf n (frame.start + found.consumed) 0 :: padding.map (Value.relabelled ρ))),υ') ∧
      State.Relabelled ρ 1 υ υ' := by
  obtain ⟨χ,padding,hcounts,hpadding,hv,rfl⟩ := finish_struct_ok h
  obtain ⟨χ',hχ,hchecked⟩ := hc.counted hcalled.own (hst.moved (frame.start + found.consumed))
    hcounts (found'.children.isEmpty && (false || frame.finish - frame.start == 0))
  rw [hcalled.call, if_neg (Nat.lt_irrefl 1)] at hchecked
  obtain ⟨χ'',hpadding',hχ'⟩ := (padding_of_copies hc.moves frame hc.inside declared _).ok hχ
    hpadding
  have hplace : (frame.relabelled ρ).start = frame.start := rfl
  have hbudget : (frame.relabelled ρ).finish = frame.finish := rfl
  have hfinish : (Value.spanning (ρ s) frame.start (found.children.toList.map
      (Value.relabelled ρ) ++ Value.leaf n (frame.start + found.consumed) 0 ::
        padding.map (Value.relabelled ρ))).finish = v.finish := by
    rw [hv]
    simp [Value.finish, Value.spanning, Value.leaf]
  refine ⟨padding,_,hv,fun w hw => (padding_labels hpadding w hw).1,?_,hχ'.moved v.finish⟩
  rw [finish_struct_run, bind_run]
  dsimp only
  rw [hcalled.consumed, hplace, hbudget, hchecked]
  dsimp only
  rw [bind_run, hpadding']
  dsimp only
  rw [hcalled.children, List.append_assoc, List.singleton_append, hfinish]
  rfl

theorem Resolved.EndsInCall.finish_missed
    (h : finishStruct setup frame frames s declared (found,true) ω = (.ok v,υ))
    (hsize : found.counts.size = (setup.grammar.membersOf s).length)
    (hst : State.Relabelled ρ 0 ω τ) :
    ∃ υ', finishStruct (setup.over g') (frame.relabelled ρ) (frames.map (Frame.relabelled ρ)) (ρ s)
        declared (found.relabelled ρ 1,true) τ =
      (.error (if found.children.isEmpty then .eof
        else .tooFew (setup.grammar.label s) (g'.label n) 0 1),υ') := by
  obtain ⟨χ,padding,hcounts,-,-,-⟩ := finish_struct_ok h
  have hempty : (found.relabelled ρ 1).children.isEmpty = found.children.isEmpty := by
    simp only [Search.relabelled, Array.isEmpty, Array.size_map]
  have hnone : (found.relabelled ρ 1).count (setup.grammar.membersOf s).length = 0 := by
    rw [found.relabelled_count, Search.count_outside (Nat.le_of_eq hsize)]
  have hplace : (frame.relabelled ρ).start + (found.relabelled ρ 1).consumed =
      frame.start + found.consumed := rfl
  obtain ⟨υ',-,hcalled⟩ := hc.counted (fun i _ => found.relabelled_count ρ 1 i)
    (hst.moved (frame.start + found.consumed)) hcounts (found.children.isEmpty && true)
  refine ⟨υ',?_⟩
  rw [hnone, if_pos Nat.zero_lt_one, Bool.and_true] at hcalled
  rw [finish_struct_run, bind_run]
  dsimp only
  rw [hempty, hplace, Bool.true_or, Bool.and_true, hcalled]

theorem Resolved.EndsInCall.search_run {χ : State μ} (hst : State.Relabelled ρ 0 χ τ)
    (attempt : ElementId → DecodeM μ Value) :
    structSearch (setup.over g') attempt (frame.relabelled ρ) (frames.map (Frame.relabelled ρ))
        (ρ s) τ =
      search (setup.over g') attempt (setup.grammar.attributesOf s).arrangement
        ((setup.grammar.membersOf s).toArray.map ρ ++ #[n]) (frame.relabelled ρ)
        (frames.map (Frame.relabelled ρ))
        ((setup.options.maxValues - χ.values + 1) * ((setup.grammar.membersOf s).toArray.size + 1) +
          (setup.options.maxValues - χ.values + 1))
        ((Search.start (setup.grammar.membersOf s)).relabelled ρ 1) τ := by
  have hmembers : (setup.over g').grammar.membersOf (ρ s) =
      (setup.grammar.membersOf s).map ρ ++ [n] := hc.members_called
  have harrangement : ((setup.over g').grammar.attributesOf (ρ s)).arrangement =
      (setup.grammar.attributesOf s).arrangement := by
    simp only [Setup.over, hc.moves.attributes, Attributes.moved]
  have harray : ((setup.grammar.membersOf s).map ρ ++ [n]).toArray =
      (setup.grammar.membersOf s).toArray.map ρ ++ #[n] := by simp
  have hstart : Search.start ((setup.grammar.membersOf s).map ρ ++ [n]) =
      (Search.start (setup.grammar.membersOf s)).relabelled ρ 1 := by
    simp [Search.start, Search.relabelled, Array.replicate_succ]
  simp only [structSearch, searchSteps, bind_run, get_run, pure_run, hmembers, harrangement,
    harray, hstart, hst.values, Array.size_append, Array.size_map]
  rfl

/-- A search that has come to the call reads it and ends. -/
theorem Resolved.EndsInCall.call_searched (hr : setup.runtime = none)
    (hs : setup.options.checkShape = false) (room : Nat)
    (hsize : found.counts.size = (setup.grammar.membersOf s).length)
    (hindex : found.index = (setup.grammar.membersOf s).length)
    (hst : State.Relabelled ρ 0 ω τ) (hv : ω.values < setup.options.maxValues) (left : Nat) :
    ∃ found' τ', search (setup.over g') (readElement (setup.over g') (room + 1)
          (frames.map (Frame.relabelled ρ))) (setup.grammar.attributesOf s).arrangement
        ((setup.grammar.membersOf s).toArray.map ρ ++ #[n]) (frame.relabelled ρ)
        (frames.map (Frame.relabelled ρ)) (left + 2) (found.relabelled ρ 1) τ =
          (.ok (found',false),τ') ∧
      found.Called ρ n (frame.start + found.consumed) (setup.grammar.membersOf s).length found' ∧
      State.Relabelled ρ 1 (ω.moved (frame.start + found.consumed)) τ' := by
  have hcall : (setup.over g').grammar.RunsOnce n := hc.call
  have hmember : ((setup.grammar.membersOf s).toArray.map ρ ++ #[n])[
      (found.relabelled ρ 1).index]? = some n := by
    simp [Search.relabelled, hindex]
  have hlast : ((setup.grammar.membersOf s).toArray.map ρ ++ #[n])[
      (found.relabelled ρ 1).index + 1]? = none := by
    simp [Search.relabelled, hindex]
  have hcount : (found.relabelled ρ 1).count (found.relabelled ρ 1).index = 0 := by
    rw [found.relabelled_count]
    exact Search.count_outside (Nat.le_of_eq (hsize.trans hindex.symm))
  obtain ⟨τ',hsearch,hcounted⟩ := hcall.search hr hs room
    (setup.grammar.attributesOf s).arrangement (frame.relabelled ρ)
    (frames.map (Frame.relabelled ρ)) hmember hlast hcount left (σ := τ) (hst.values ▸ hv)
  have hmoved := hst.moved (frame.start + found.consumed)
  exact ⟨_,τ',hsearch,accept_called ρ n _ hsize hindex _,
    hcounted.source.trans hmoved.source,hcounted.history.trans hmoved.history,
    hcounted.order.trans hmoved.order,hcounted.values.trans (congrArg (· + 1) hmoved.values)⟩

/-- The search of the structure comes to the call and reads it, or ends before it at the end of the
data. -/
theorem Resolved.EndsInCall.searched (hr : setup.runtime = none)
    (hs : setup.options.checkShape = false) {room : Nat} (hroom : 0 < room) {dry : Bool}
    {χ : State μ} (h : structSearch setup (readElement setup room frames) frame frames s χ =
      (.ok (found,dry),ω)) (hst : State.Relabelled ρ 0 χ τ)
    (hv : ω.values < setup.options.maxValues) :
    found.counts.size = (setup.grammar.membersOf s).length ∧ ∃ found' τ',
      structSearch (setup.over g') (readElement (setup.over g') room
          (frames.map (Frame.relabelled ρ))) (frame.relabelled ρ) (frames.map (Frame.relabelled ρ))
          (ρ s) τ = (.ok (found',dry),τ') ∧
      (dry = true → found' = found.relabelled ρ 1 ∧ State.Relabelled ρ 0 ω τ') ∧
      (dry = false → found.Called ρ n (frame.start + found.consumed)
          (setup.grammar.membersOf s).length found' ∧
        State.Relabelled ρ 1 (ω.moved (frame.start + found.consumed)) τ') := by
  obtain ⟨room,rfl⟩ := Nat.exists_eq_add_of_lt hroom
  rw [Nat.zero_add] at h ⊢
  have hin : ∀ m ∈ (setup.grammar.membersOf s).toArray, A m :=
    fun m hm => hc.own m (List.mem_toArray.mp hm)
  obtain ⟨hsize,τ1,hω,hend,hon⟩ := search_comes_to hc.moves (fun m hm => hc.known (hin m hm))
    (fun m hm => read_element_copies hc.toCopied hr hs (room + 1) frames (hin m hm))
    (read_element_reader setup _ _) _ frame frames n Array.size_replicate (Nat.zero_le _) hst h
    (setup.options.maxValues - χ.values + 1)
  rw [List.size_toArray] at hsize
  rw [hc.search_run hst]
  refine ⟨hsize,?_⟩
  cases dry with
  | true => exact ⟨_,τ1,hend rfl,fun _ => ⟨rfl,hω⟩,Bool.noConfusion⟩
  | false =>
    obtain ⟨hindex,left,hleft,hrest⟩ := hon rfl
    obtain ⟨left,rfl⟩ : ∃ k, left = k + 1 := ⟨left - 1,by omega⟩
    rw [List.size_toArray] at hindex
    obtain ⟨found',τ2,hsearch,hcalled⟩ := hc.call_searched hr hs room hsize hindex hω hv left
    exact ⟨found',τ2,hrest.trans hsearch,Bool.noConfusion,fun _ => hcalled⟩

end

section
variable {setup : Setup μ} {id : ElementId} {σ τ : State μ}

theorem opening_start {frames : List Frame} {frame : Frame} {declared : Option Nat}
    (h : opening setup frames id σ = (.ok (frame,declared),τ)) :
    frame.start = σ.source.position := by
  obtain ⟨start,_,hcursor,h1⟩ := bind_ok.mp h
  obtain ⟨rfl,rfl⟩ := cursor_ok hcursor
  obtain ⟨limit,_,-,h2⟩ := bind_ok.mp h1
  obtain ⟨declared',_,-,h3⟩ := bind_ok.mp h2
  obtain ⟨_,_,-,h4⟩ := bind_ok.mp h3
  obtain ⟨hopened,-⟩ := pure_ok.mp h4
  cases hopened
  rfl

theorem closing_ok {start : Nat} {result : Except DecodeFault Value} {v : Value}
    (h : closing setup id start result σ = (.ok v,τ)) :
    result = .ok v ∧ τ.values = σ.values + 1 := by
  cases result with
  | error fault =>
    obtain ⟨_,_,_,h1⟩ := bind_ok.mp h
    cases h1
  | ok w =>
    obtain ⟨_,_,hlog,h1⟩ := bind_ok.mp h
    obtain rfl := log_ok hlog
    obtain ⟨_,υ,hcheck,h2⟩ := bind_ok.mp h1
    obtain ⟨_,_,hrecord,h3⟩ := bind_ok.mp h2
    obtain ⟨rfl,rfl⟩ := pure_ok.mp h3
    have hvalues := ((check_read_quiet setup w).of_run hcheck).values
    exact ⟨rfl,(record_value_ok hrecord).values.trans (congrArg (· + 1) hvalues)⟩

theorem finish_struct_values {frame : Frame} {frames : List Frame} {declared : Option Nat}
    {found : Search × Bool} {v : Value}
    (h : finishStruct setup frame frames id declared found σ = (.ok v,τ)) :
    τ.values = σ.values := by
  obtain ⟨χ,padding,hcounts,-,-,rfl⟩ := finish_struct_ok h
  exact ((check_counts_quiet setup _ _ _ _ _ _).of_run hcounts).values

end

section
variable {setup : Setup μ} {id : Nat} (offset : Nat) (σ : State μ)

theorem read_struct_search (attempt : ElementId → DecodeM μ Value) (frame : Frame)
    (frames : List Frame) (declared : Option Nat) :
    readStruct setup attempt frame frames id declared =
      structSearch setup attempt frame frames id >>=
        finishStruct setup frame frames id declared := by
  simp only [readStruct, structSearch, bind_assoc]
  rfl

theorem search_of_run : searchOf setup id offset σ =
    (opening setup [⟨Grammar.root, 0, σ.source.length⟩] id >>= fun opened =>
      structSearch setup (readElement setup (setup.options.maxDepth - 2)
        [opened.1, ⟨Grammar.root, 0, σ.source.length⟩]) opened.1
        [opened.1, ⟨Grammar.root, 0, σ.source.length⟩] id) (σ.begun setup offset) := rfl

theorem decode_struct_run (hk : (setup.grammar.kind id).isStruct)
    (hdepth : 1 < setup.options.maxDepth) : decodeElement setup id offset σ =
    (opening setup [⟨Grammar.root, 0, σ.source.length⟩] id >>= fun opened =>
      outcome (structSearch setup (readElement setup (setup.options.maxDepth - 2)
        [opened.1, ⟨Grammar.root, 0, σ.source.length⟩]) opened.1
        [opened.1, ⟨Grammar.root, 0, σ.source.length⟩] id >>=
        finishStruct setup opened.1 [opened.1, ⟨Grammar.root, 0, σ.source.length⟩] id opened.2) >>=
        closing setup id opened.1.start) (σ.begun setup offset) := by
  obtain ⟨settings,hkind⟩ := kind_of_struct hk
  have hroom : setup.options.maxDepth - 1 = setup.options.maxDepth - 2 + 1 := by omega
  rw [decode_element_eq, readInRoot, hroom, readElement, read_with_closing]
  simp only [readKind, hkind, read_struct_search]

theorem decode_struct_searched (hk : (setup.grammar.kind id).isStruct)
    (hdepth : 1 < setup.options.maxDepth) {frame : Frame} {declared : Option Nat}
    {found : Search × Bool} {χ ω : State μ}
    (hopen : opening setup [⟨Grammar.root, 0, σ.source.length⟩] id (σ.begun setup offset) =
      (.ok (frame,declared),χ))
    (hsearch : structSearch setup (readElement setup (setup.options.maxDepth - 2)
      [frame, ⟨Grammar.root, 0, σ.source.length⟩]) frame [frame, ⟨Grammar.root, 0, σ.source.length⟩]
      id χ = (.ok found,ω)) :
    decodeElement setup id offset σ =
      (outcome (finishStruct setup frame [frame, ⟨Grammar.root, 0, σ.source.length⟩] id declared
        found) >>= closing setup id frame.start) ω := by
  rw [decode_struct_run offset σ hk hdepth, bind_run, hopen]
  dsimp only
  rw [bind_run, outcome_run, bind_run, hsearch]
  rfl

theorem decode_struct_ok (hk : (setup.grammar.kind id).isStruct)
    (hdepth : 1 < setup.options.maxDepth) {v : Value} {τ : State μ}
    (h : decodeElement setup id offset σ = (.ok v,τ)) : ∃ frame declared χ found ω υ,
      frame.start = offset ∧
      opening setup [⟨Grammar.root, 0, σ.source.length⟩] id (σ.begun setup offset) =
        (.ok (frame,declared),χ) ∧
      structSearch setup (readElement setup (setup.options.maxDepth - 2)
        [frame, ⟨Grammar.root, 0, σ.source.length⟩]) frame
        [frame, ⟨Grammar.root, 0, σ.source.length⟩] id χ = (.ok found,ω) ∧
      finishStruct setup frame [frame, ⟨Grammar.root, 0, σ.source.length⟩] id declared found ω =
        (.ok v,υ) ∧ τ.values = ω.values + 1 := by
  rw [decode_struct_run offset σ hk hdepth] at h
  obtain ⟨⟨frame,declared⟩,χ,hopen,h1⟩ := bind_ok.mp h
  obtain ⟨result,υ,hout,h2⟩ := bind_ok.mp h1
  obtain ⟨rfl,hτ⟩ := closing_ok h2
  obtain ⟨found,ω,hsearch,hfinish⟩ := bind_ok.mp (outcome_ok hout)
  rw [finish_struct_values hfinish] at hτ
  exact ⟨frame,declared,χ,found,ω,υ,opening_start hopen,hopen,hsearch,hfinish,hτ⟩

theorem closing_struct (hk : (setup.grammar.kind id).isStruct)
    (hs : setup.options.checkShape = false) {m : DecodeM μ Value} {start : Nat} {v : Value}
    {ω υ : State μ} (h : m ω = (.ok v,υ)) (hv : υ.values < setup.options.maxValues) :
    ∃ τ, (outcome m >>= closing setup id start) ω = (.ok v,τ) := by
  have hunrecorded : (setup.grammar.kind id).isRecorded = false := by
    obtain ⟨settings,hsettings⟩ := kind_of_struct hk
    rw [hsettings]
    rfl
  obtain ⟨τ,hclose,-⟩ := closing_counted id hs hunrecorded start v hv
  exact ⟨τ,by rw [bind_run, outcome_run, h]; exact hclose⟩

theorem closing_fault {m : DecodeM μ Value} {start : Nat} {fault : DecodeFault} {ω υ : State μ}
    (h : m ω = (.error fault,υ)) :
    ∃ τ, (outcome m >>= closing setup id start) ω = (.error fault,τ) := by
  rw [bind_run, outcome_run, h]
  exact ⟨_,rfl⟩

end

section
variable {setup : Setup μ} {g' : Resolved} {ρ : Nat → Nat} {A : Nat → Prop} {s n : Nat}

/-- A structure with a call behind its members is decoded as the structure is, with the call behind
its children, unless the search has ended at the end of the data. -/
theorem Resolved.EndsInCall.decoded (hc : setup.grammar.EndsInCall ρ g' A s n)
    (hr : setup.runtime = none) (hs : setup.options.checkShape = false)
    (hdepth : 2 < setup.options.maxDepth) {offset : Nat} {σ τ : State μ} {v : Value}
    (h : decodeElement setup s offset σ = (.ok v,τ)) (hv : τ.values < setup.options.maxValues) :
    ∃ found dry ω padding, searchOf setup s offset σ = (.ok (found,dry),ω) ∧
      v = Value.spanning s offset (found.children.toList ++ padding) ∧
      (∀ w ∈ padding, w.element = setup.grammar.padding) ∧
      (dry = false → ∃ τ', decodeElement (setup.over g') (ρ s) offset σ =
        (.ok (Value.spanning (ρ s) offset (found.children.toList.map (Value.relabelled ρ) ++
          Value.leaf n (offset + found.consumed) 0 :: padding.map (Value.relabelled ρ))),τ')) ∧
      (dry = true → ∃ τ', decodeElement (setup.over g') (ρ s) offset σ =
        (.error (if found.children.isEmpty then .eof
          else .tooFew (setup.grammar.label s) (g'.label n) 0 1),τ')) := by
  have hlt : 1 < setup.options.maxDepth := by omega
  obtain ⟨frame,declared,χ,⟨found,dry⟩,ω,υ,rfl,hopen,hsearch,hfinish,hτ⟩ :=
    decode_struct_ok offset σ hc.struct hlt h
  have hfound : searchOf setup s frame.start σ = (.ok (found,dry),ω) := by
    rw [search_of_run, bind_run, hopen]
    exact hsearch
  have hbegun : State.Relabelled ρ 0 (σ.begun setup frame.start)
    (σ.begun (setup.over g') frame.start) := ⟨rfl,rfl,rfl,rfl⟩
  have hframes : [⟨Grammar.root, 0, σ.source.length⟩].map (Frame.relabelled ρ) =
      [⟨Grammar.root, 0, σ.source.length⟩] := by
    simp [Frame.relabelled, hc.root]
  have hkind : ((setup.over g').grammar.kind (ρ s)).isStruct := (hc.moves.kind s).symm ▸ hc.struct
  -- The structure is opened, searched and finished at the same states with the call behind it.
  obtain ⟨χ',hopen',hχ⟩ := (opening_copies hc.moves hc.inside _).ok hbegun hopen
  obtain ⟨hsize,found',ω',hsearch',hdry,hfull⟩ :=
    hc.searched hr hs (by omega) hsearch hχ (by omega)
  rw [List.map_cons, hframes] at hsearch'
  rw [hframes] at hopen'
  have hrun := decode_struct_searched frame.start σ hkind hlt hopen' hsearch'
  cases dry with
  | true =>
    obtain ⟨rfl,hend⟩ := hdry rfl
    obtain ⟨_,padding,-,hpadding,hvalue,-⟩ := finish_struct_ok hfinish
    obtain ⟨υ',hmissed⟩ := hc.finish_missed hfinish hsize hend
    rw [List.map_cons, hframes] at hmissed
    obtain ⟨τ',hclose⟩ := closing_fault hmissed
    exact ⟨found,true,ω,padding,hfound,hvalue,fun w hw => (padding_labels hpadding w hw).1,
      Bool.noConfusion,fun _ => ⟨τ',hrun.trans hclose⟩⟩
  | false =>
    obtain ⟨hcalled,hend⟩ := hfull rfl
    obtain ⟨padding,υ',hvalue,hlabels,hfinish',hυ⟩ := hc.finish_called hfinish hcalled hend
    rw [List.map_cons, hframes] at hfinish'
    have hallowed : υ'.values < (setup.over g').options.maxValues := by
      show υ'.values < setup.options.maxValues
      rw [hυ.values, finish_struct_values hfinish]
      omega
    obtain ⟨τ',hclose⟩ := closing_struct hkind hs hfinish' hallowed
    exact ⟨found,false,ω,padding,hfound,hvalue,hlabels,fun _ => ⟨τ',hrun.trans hclose⟩,
      Bool.noConfusion⟩

end

/-- What is not read inside of the structure again stands in the grammar with the call as before. -/
theorem Grammar.TakesCall.ends_in_call {authored grown : Grammar} {s : Nat} {e : Element}
    (h : authored.TakesCall grown s e)
    (hbase : ∀ id, (authored.link.1.attributesOf id).base ≠ some s)
    (hleads : ¬Relation.TransGen authored.link.1.Encloses s s) :
    authored.link.1.EndsInCall (shifted authored.size) grown.link.1
      (fun id => authored.Added id ∧ ¬Relation.ReflTransGen authored.link.1.Encloses id s) s
      authored.size where
  moves := h.moves
  known := by
    rintro id ⟨hid,-⟩
    exact Nat.lt_of_lt_of_eq (Nat.lt_succ_of_lt hid.2) (size_push authored .padding).symm
  members := by
    rintro id ⟨-,hnot⟩
    refine h.members hbase ?_
    rintro rfl
    exact hnot .refl
  member := by
    rintro id m ⟨-,hnot⟩ hm
    exact ⟨member_added h.built hm,fun hback => hnot (.head (.inl hm) hback)⟩
  target := by
    rintro id t link ⟨-,hnot⟩ hk ht
    exact ⟨added_of_kind h.built (.inl ((link_linked authored).target hk ht)),fun hback =>
      hnot (.head (.inr ⟨link,hk,ht⟩) hback)⟩
  root := shifted_before (built_root_kind h.built).1
  struct := by
    obtain ⟨⟨p,hp,hstruct⟩,-⟩ := add_child_parent h.added
    rw [link_kind (parent_known h.added), Grammar.element, hp]
    exact hstruct
  inside := Nat.lt_of_lt_of_eq (Nat.lt_succ_of_lt (parent_known h.added))
    (size_push authored .padding).symm
  own := by
    intro m hm
    refine ⟨member_added h.built hm,fun hback => hleads ?_⟩
    exact Relation.TransGen.head' (.inl hm) hback
  members_called := by
    rw [shifted_before (parent_known h.added)]
    exact h.members_called hbase
  call := h.call

theorem search_of_checking {setup : Setup μ} (hg : setup.grammar.Linked) (check : Bool)
    (id : ElementId) (offset : Nat) (σ : State μ) :
    searchOf (setup.checking check) id offset σ = searchOf setup id offset σ := by
  have hattempt : readElement (setup.checking check) = readElement setup := by
    funext room frames id σ
    exact read_element_checking hg check room frames id σ
  simp only [search_of_run, structSearch, hattempt, search_checking]
  rfl

/-- A structure takes one more child, which runs a script and has a name of its own. Where nothing
extends the structure, nothing that is read inside leads back to it, and the limits leave room for
the call, its value gains one child of no bytes behind all others and before the padding, unless the
search has ended at the end of the data: the call has not been tried then, and is missed. -/
theorem trailing_call_read {authored grown : Grammar} {setup : Setup μ} {g' : Resolved} {s : Nat}
    {e : Element} (hb : authored.Built) (hg : authored.resolve = .ok setup.grammar)
    (hadd : authored.addChild s e = .ok grown) (hg' : grown.resolve = .ok g') (hcalls : e.Calls)
    (hfresh : ∀ id, authored.Added id → (authored.element id).name ≠ e.name)
    (hbase : ∀ id, (setup.grammar.attributesOf id).base ≠ some s)
    (hleads : ¬Relation.TransGen setup.grammar.Encloses s s) (hr : setup.runtime = none)
    (hdepth : 2 < setup.options.maxDepth) {offset : Nat} {σ τ : State μ} {v : Value}
    (h : decodeElement setup s offset σ = (.ok v,τ)) (hv : τ.values < setup.options.maxValues) :
    ∃ found dry ω padding, searchOf setup s offset σ = (.ok (found,dry),ω) ∧
      v = Value.spanning s offset (found.children.toList ++ padding) ∧
      (∀ w ∈ padding, w.element = setup.grammar.padding) ∧
      (dry = false → ∃ τ', decodeElement (setup.over g') s offset σ =
        (.ok (Value.spanning s offset
          (found.children.toList.map (Value.relabelled (shifted authored.size)) ++
            Value.leaf authored.size (offset + found.consumed) 0 ::
              padding.map (Value.relabelled (shifted authored.size)))),τ')) ∧
      (dry = true → ∃ τ', decodeElement (setup.over g') s offset σ =
        (.error (if found.children.isEmpty then .eof
          else .tooFew (setup.grammar.label s) e.label 0 1),τ')) := by
  obtain ⟨hlinked,hfaults,-⟩ := Grammar.resolve_ok hg
  obtain ⟨rfl,hfaults',-⟩ := Grammar.resolve_ok hg'
  have htakes : authored.TakesCall grown s e := ⟨hb,hadd,hfresh,hcalls,hfaults,hfaults'⟩
  have hlinks := Grammar.resolve_linked hg
  have hlinks' : (setup.over grown.link.1).grammar.Linked := Grammar.resolve_linked hg'
  rw [hlinked] at hbase hleads
  have hends := htakes.ends_in_call hbase hleads
  rw [← hlinked, show setup.grammar = (setup.checking false).grammar from rfl] at hends
  have hplace : shifted authored.size s = s := shifted_before (Grammar.parent_known hadd)
  have hknown : authored.size < grown.link.1.size := by
    rw [show grown.link.1.size = grown.size + 1 from Grammar.size_push grown _,
      Grammar.grown_size hadd]
    omega
  have hlabel : grown.link.1.label authored.size = e.label :=
    (Resolved.label_known hknown).trans (congrArg Element.label (Grammar.grown_element hadd))
  rw [← decode_element_checking hlinks false] at h
  obtain ⟨found,dry,ω,padding,hfound,hvalue,hlabels,hfull,hdry⟩ :=
    hends.decoded hr rfl hdepth h hv
  rw [hplace] at hfull hdry
  rw [search_of_checking hlinks] at hfound
  refine ⟨found,dry,ω,padding,hfound,hvalue,hlabels,fun hon => ?_,fun hend => ?_⟩
  · obtain ⟨τ',hread⟩ := hfull hon
    exact ⟨τ',(decode_element_checking hlinks' false s offset σ).symm.trans hread⟩
  · obtain ⟨τ',hread⟩ := hdry hend
    rw [hlabel] at hread
    exact ⟨τ',(decode_element_checking hlinks' false s offset σ).symm.trans hread⟩

def entries (most : Quantity) : Grammar :=
  let g := (Grammar.new "entries").add (Element.script "note" "lua" "")
  let g := g.add (Element.struct "record")
  let g := (g.addChildren 2 [((Element.number "byte").withLength (.literal 1)).withMost
    most]).toOption.getD g
  g.setStart (.index 2)

def note : Element := Element.scriptElement "run" (some (.name "note"))

def noted (most : Quantity) : Grammar :=
  ((entries most).addChild 2 note).toOption.getD (entries most)

theorem entries_built (most : Quantity) : (entries most).Built :=
  .setStart _ (.grown (.add _ (.add _ (.new _))) 2 _)

def entriesSetup (most : Quantity) : Setup Unit := Setup.plain (entries most)

theorem entries_apart :
    ¬Relation.TransGen (entriesSetup (.literal 2)).grammar.Encloses 2 2 := by
  have hmembers : (entriesSetup (.literal 2)).grammar.membersOf 2 = [3] ∧
      (entriesSetup (.literal 2)).grammar.membersOf 3 = [] := by decide +kernel
  have htargets : ∀ id ∈ [2, 3],
      ((entriesSetup (.literal 2)).grammar.attributesOf id).target = none := by decide +kernel
  have hnone : ∀ m, ¬(entriesSetup (.literal 2)).grammar.Encloses 3 m := by
    rintro m (hm | ⟨link,-,ht⟩)
    · rw [hmembers.2] at hm
      cases hm
    · rw [htargets 3 (by decide)] at ht
      cases ht
  intro h
  obtain ⟨m,hm | ⟨link,-,ht⟩,hback⟩ := Relation.TransGen.head'_iff.mp h
  · rw [hmembers.1] at hm
    obtain rfl := List.mem_singleton.mp hm
    rcases hback.cases_head with heq | ⟨x,hx,-⟩
    · cases heq
    · exact hnone x hx
  · rw [htargets 2 (by decide)] at ht
    cases ht

theorem entries_call_read : ∃ found ω padding τ',
    searchOf (entriesSetup (.literal 2)) 2 0 (bytesState #[1, 2]) = (.ok (found,false),ω) ∧
    found.children.size = 2 ∧
    decodeElement ((entriesSetup (.literal 2)).over (noted (.literal 2)).link.1) 2 0
      (bytesState #[1, 2]) = (.ok (Value.spanning 2 0
        (found.children.toList.map (Value.relabelled (shifted 4)) ++
          Value.leaf 4 (0 + found.consumed) 0 :: padding)),τ') := by
  have hg : (entries (.literal 2)).resolve = .ok (entriesSetup (.literal 2)).grammar :=
    Grammar.resolve_sound (by decide +kernel)
  have hg' : (noted (.literal 2)).resolve = .ok (noted (.literal 2)).link.1 :=
    Grammar.resolve_sound (by decide +kernel)
  have hadd : (entries (.literal 2)).addChild 2 note = .ok (noted (.literal 2)) := rfl
  have hcalls : note.Calls := ⟨⟨_,rfl⟩,rfl,rfl,rfl⟩
  have hfresh : ∀ id, (entries (.literal 2)).Added id →
      ((entries (.literal 2)).element id).name ≠ note.name := by
    have hall : ∀ id < 4, ((entries (.literal 2)).element id).name ≠ note.name := by
      decide +kernel
    exact fun id hid => hall id hid.2
  have hbase : ∀ id, ((entriesSetup (.literal 2)).grammar.attributesOf id).base ≠ some 2 := by
    have hall : ∀ id < 5, ((entriesSetup (.literal 2)).grammar.attributesOf id).base ≠ some 2 := by
      decide +kernel
    intro id
    rcases Nat.lt_or_ge id 5 with hlt | hge
    · exact hall id hlt
    · rw [show (entriesSetup (.literal 2)).grammar.attributesOf id = default from
        Grammar.link_attributes_outside hge]
      nofun
  obtain ⟨v,τ,hv⟩ := run_ok
    (r := decodeElement (entriesSetup (.literal 2)) 2 0 (bytesState #[1, 2])) (by decide +kernel)
  have hvalues : τ.values < (entriesSetup (.literal 2)).options.maxValues := by
    have hcount : (decodeElement (entriesSetup (.literal 2)) 2 0 (bytesState #[1, 2])).2.values =
      3 := by decide +kernel
    rw [hv] at hcount
    rw [hcount]
    decide
  have hsearch : ((searchOf (entriesSetup (.literal 2)) 2 0 (bytesState #[1, 2])).1.toOption.map
      fun found => (found.1.children.size,found.2)) = some (2,false) := by decide +kernel
  obtain ⟨found,dry,ω,padding,hfound,-,-,hfull,-⟩ := trailing_call_read
    (entries_built _) hg hadd hg' hcalls hfresh hbase
    entries_apart rfl (by decide) hv hvalues
  rw [hfound] at hsearch
  obtain ⟨hsize,rfl⟩ := Prod.mk.inj (Option.some.inj hsearch)
  obtain ⟨τ',hread⟩ := hfull rfl
  exact ⟨found,ω,_,τ',hfound,hsize,hread⟩

def chained : Grammar :=
  let g := (Grammar.new "chained").add (Element.script "note" "lua" "")
  let g := g.add (Element.struct "outer")
  let g := (g.addChildren 2 [Element.struct "record"]).toOption.getD g
  let g := (g.addChildren 3 [((Element.number "one").withLength (.literal 1)).withValue
    { name := "one", value := 1 },
    (Element.structRef "again" (some (.name "outer"))).withLeast (.literal 0)]).toOption.getD g
  g.setStart (.name "outer")

def chainedNoted : Grammar := (chained.addChild 3 note).toOption.getD chained

def recordRead (g : Grammar) (id : ElementId) (data : Array UInt8) : Except DecodeFault Value :=
  (decodeElement (Setup.plain g) id 0 (bytesState data)).1

/-- Bytes without a bound are read up to the end of the data, so that the call behind them is never
tried and is missed. And a record that is read again inside of itself, although nothing extends it
or refers to it, has the call there too: its tree gains two values. -/
theorem entries_call_missed :
    (∀ g ∈ [entries .unlimited, noted .unlimited, chained, chainedNoted],
      g.resolve = .ok g.link.1) ∧
    (recordRead (entries .unlimited) 2 #[1, 2]).toOption.map Value.count = some 3 ∧
    recordRead (noted .unlimited) 2 #[1, 2] =
      .error (.tooFew "Structure<00 record>" "ScriptElement<00 run>" 0 1) ∧
    (∀ id < chained.size, (chained.link.1.attributesOf id).base ≠ some 3 ∧
      (chained.link.1.attributesOf id).target ≠ some 3) ∧
    (recordRead chained 3 #[1, 1, 2]).toOption.map Value.count = some 5 ∧
    (recordRead chainedNoted 3 #[1, 1, 2]).toOption.map Value.count = some 7 := by
  refine ⟨?_,by decide +kernel,fault_of_some.mp (by decide +kernel),by decide +kernel,
    by decide +kernel,by decide +kernel⟩
  have hall : ∀ g ∈ [entries .unlimited, noted .unlimited, chained, chainedNoted],
      (g.link.2 ++ g.link.1.check).isEmpty := by decide +kernel
  exact fun g hg => Grammar.resolve_sound (hall g hg)

end ByteGrammar
