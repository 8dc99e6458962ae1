import ByteGrammar.Proofs.Decode.Remaining
import ByteGrammar.Proofs.Decode.Tally

/-!
# Where the data ends

A clean end of the data ends the search around it. In memory, an element comes to one only where
its own frame has no bytes: where the frame around it has none left, or where a length of nothing
is declared, by the element or by one inside of it that is read at the same place. In the second
case the search around it ends although there are bytes left for what would come next.
-/

set_option autoImplicit false

namespace ByteGrammar

open Stepwise DecodeM Source

variable {μ α : Type}

def EndsOnly (C : Prop) (fault : DecodeFault) : Prop := fault = .eof → C

instance (C : Prop) : Admits (EndsOnly C) where
  ordinary h hend := by
    rw [hend] at h
    cases h

structure Backed (frame : Frame) (s : State μ) : Prop where
  memory : s.source.InMemory
  bytes : frame.finish ≤ max s.source.position s.source.length

section
variable {setup : Setup μ} {frame : Frame} {id : ElementId} {declared : Option Nat}
  {P : DecodeFault → Prop} {s t : State μ}

theorem Backed.later (h : Backed frame s) (hr : State.SameReader s t)
    (hp : s.source.position ≤ t.source.position) : Backed frame t := by
  have hbytes := h.bytes
  exact ⟨hr.in_memory h.memory,by rw [hr.length]; omega⟩

theorem Backed.taken (h : Backed frame s) {n : Nat} {bytes : List UInt8}
    (ht : take n s = (.ok bytes,t)) : Backed frame t :=
  h.later ((take_keeps n).of_run ht : State.Kept s t).reader
    (by rw [(take_ok ht).2.2]; exact Nat.le_add_right _ _)

theorem Backed.room (h : Backed frame s) :
    frame.available s.source.position ≤ s.source.data.size - s.source.position := by
  have hbytes := h.bytes
  rw [h.memory.length] at hbytes
  simp only [Frame.available]
  omega

theorem take_faults_backed (h : Backed frame s) {n : Nat}
    (hn : n ≤ frame.available s.source.position) :
    FaultsFrom P (take n : DecodeM μ (List UInt8)) s := by
  intro e t ht
  rw [take_in_memory h.memory (Nat.le_trans hn h.room)] at ht
  cases ht

theorem claim_dry (wanted : Nat) :
    FaultsFrom (EndsOnly (frame.finish ≤ s.source.position)) (claim setup frame id wanted) s := by
  refine bind_faults_from (cursor_faults s) fun hc => ?_
  obtain ⟨rfl,rfl⟩ := cursor_ok hc
  dsimp only
  split
  · exact pure_faults _ _
  · split
    · next hnone => exact fun _ _ _ _ => Nat.le_of_sub_eq_zero hnone
    · exact throw_faults (Admits.ordinary rfl) _

theorem read_number_dry (h : Backed frame s) :
    FaultsFrom (EndsOnly (frame.finish ≤ s.source.position))
      (readNumber setup frame id declared) s := by
  refine bind_faults_from (integer_length_faults (fun _ => nofun) s) fun hn => ?_
  obtain ⟨-,rfl⟩ := integer_length_ok hn
  refine bind_faults_from (claim_dry _) fun hc => ?_
  obtain ⟨rfl,rfl,hw⟩ := claim_ok hc
  refine bind_faults_from (take_faults_backed h hw) fun _ => ?_
  refine bind_faults (order_of_faults _) (fun order => ?_) _
  split
  · exact throw_faults (Admits.ordinary rfl)
  · exact match_fixed_faults _ _ _ _ _ _

theorem read_offset_dry :
    FaultsFrom (EndsOnly (frame.finish ≤ s.source.position))
      (readOffset setup frame id declared) s := by
  refine bind_faults_from (integer_length_faults (fun _ => nofun) s) fun hn => ?_
  obtain ⟨-,rfl⟩ := integer_length_ok hn
  refine bind_faults_from (claim_dry _) fun hc => ?_
  refine bind_faults (seek_faults _) (fun _ => ?_) _
  exact bind_faults (order_of_faults _) fun order => pure_faults _

theorem read_binary_dry (h : Backed frame s) :
    FaultsFrom (EndsOnly (frame.finish ≤ s.source.position))
      (readBinary setup frame id declared) s := by
  refine bind_faults_from (required_length_faults (fun _ => nofun) s) fun hn => ?_
  obtain ⟨-,rfl⟩ := required_length_ok hn
  refine bind_faults_from (claim_dry _) fun hc => ?_
  obtain ⟨rfl,rfl,hw⟩ := claim_ok hc
  dsimp only
  split
  · exact bind_faults (seek_faults _) (fun _ => pure_faults _) _
  · exact bind_faults_from (take_faults_backed h hw) fun _ => match_fixed_faults _ _ _ _ _ _ _

theorem read_custom_dry :
    FaultsFrom (EndsOnly (frame.finish ≤ s.source.position))
      (readCustom setup frame id declared) s := by
  refine bind_faults_from (required_length_faults (fun _ => nofun) s) fun hn => ?_
  obtain ⟨-,rfl⟩ := required_length_ok hn
  refine bind_faults_from (claim_dry _) fun hc => ?_
  refine bind_faults (seek_faults _) (fun _ => ?_) _
  dsimp only
  split
  · refine bind_faults (run_script_faults (fun _ => nofun) (fun _ _ _ => nofun) _) fun _ => ?_
    exact bind_faults (seek_faults _) fun _ => pure_faults _
  · exact pure_faults _

theorem read_script_dry {C : Prop} : Faults (EndsOnly C) (readScript setup id) := by
  refine bind_faults cursor_faults fun start => ?_
  refine bind_faults (run_script_faults (fun _ => nofun) (fun _ _ _ => nofun) _) fun _ => ?_
  exact bind_faults (seek_faults _) fun _ => pure_faults _

theorem scan_faults_backed (h : Backed frame s) (delimiter : UInt8) {rest strides : Nat}
    (hn : rest + strides * stride ≤ frame.available s.source.position) :
    FaultsFrom P (scan delimiter rest strides) s := by
  induction strides generalizing s with
  | zero =>
    rw [scan]
    split
    · exact pure_faults _ _
    · exact bind_faults_from (take_faults_backed h (by omega)) fun _ => pure_faults _ _
  | succ strides ih =>
    rw [Nat.succ_mul] at hn
    rw [scan]
    refine bind_faults_from (take_faults_backed h (by omega)) fun ht => ?_
    split
    · exact pure_faults _ _
    · refine bind_faults_from (ih (h.taken ht) ?_) fun _ => pure_faults _ _
      have hmoved := (take_ok ht).2.2
      simp only [Frame.available] at hn ⊢
      omega

theorem read_delimited_dry (h : Backed frame s) (delimiter : UInt8) :
    FaultsFrom (EndsOnly (frame.finish ≤ s.source.position))
      (readDelimited setup frame id delimiter) s := by
  refine bind_faults_from (cursor_faults s) fun hc => ?_
  obtain ⟨rfl,rfl⟩ := cursor_ok hc
  dsimp only
  split
  · next hnone => exact throw_bind_faults (fun _ => Nat.le_of_sub_eq_zero hnone) _ _
  · have hall := Nat.le_of_eq (Nat.mod_add_div' (frame.available s.source.position) stride)
    refine bind_faults_from (scan_faults_backed h delimiter hall) fun {found _} _ => ?_
    cases found with
    | none => exact throw_faults (Admits.ordinary rfl) _
    | some bytes => exact bind_faults (seek_faults _) (fun _ => pure_faults _) _

theorem read_counted_dry (h : Backed frame s) :
    FaultsFrom (EndsOnly (frame.finish ≤ s.source.position)) (readCounted setup frame id) s := by
  refine bind_faults_from (claim_dry _) fun hc => ?_
  obtain ⟨rfl,rfl,hw⟩ := claim_ok hc
  refine bind_faults_from (take_faults_backed h hw) fun ht => ?_
  dsimp only
  split
  · exact throw_bind_faults (Admits.ordinary rfl) _ _
  · next hmore =>
    refine bind_faults_from (take_faults_backed (h.taken ht) ?_) fun _ => pure_faults _ _
    have hmoved := (take_ok ht).2.2
    simp only [Frame.available] at hmore ⊢
    omega

theorem read_text_dry (h : Backed frame s) :
    FaultsFrom (EndsOnly (frame.finish ≤ s.source.position))
      (readText setup frame id declared) s := by
  rw [read_text_eq]
  refine bind_faults_from (cursor_faults s) fun hc => ?_
  obtain ⟨-,rfl⟩ := cursor_ok hc
  refine bind_faults_from ?_ fun _ => match_fixed_faults _ _ _ _ _ _ _
  unfold readTextBytes
  cases (setup.grammar.attributesOf id).textKind with
  | zeroTerminated => exact read_delimited_dry h _
  | delimited delimiter => exact read_delimited_dry h _
  | counted => exact read_counted_dry h
  | fixedLength =>
    refine bind_faults_from (required_length_faults (fun _ => nofun) s) fun hn => ?_
    obtain ⟨-,rfl⟩ := required_length_ok hn
    refine bind_faults_from (map_faults_from _ (claim_dry _)) fun hd => ?_
    obtain ⟨_,_,hc,hu⟩ := bind_ok.mp hd
    obtain ⟨rfl,rfl,hw⟩ := claim_ok hc
    cases hu
    exact take_faults_backed h hw

theorem read_leaf_dry (attempt : ElementId → DecodeM μ Value) (frames : List Frame)
    (simple : (setup.grammar.kind id).isLeaf) (h : Backed frame s) :
    FaultsFrom (EndsOnly (frame.finish ≤ s.source.position))
      (readKind setup attempt frame frames id declared) s := by
  unfold readKind
  cases hk : setup.grammar.kind id with
  | number settings => exact read_number_dry h
  | text settings => exact read_text_dry h
  | binary settings => exact read_binary_dry h
  | custom script => exact read_custom_dry
  | offset settings => exact read_offset_dry
  | script script => exact read_script_dry _
  | scriptElement script => exact read_script_dry _
  | _ =>
    rw [hk] at simple
    cases simple

end

section
variable {setup : Setup μ} {attempt : ElementId → DecodeM μ Value} {frame : Frame}
  {frames : List Frame} {id : ElementId} {declared : Option Nat} {s : State μ} {C : Prop}

theorem Advances.unread {arrangement : Arrangement} {members : Array ElementId} {s s' : Search}
    {σ τ : State μ} (h : Advances setup attempt arrangement members frame frames s σ s' τ)
    (hs : s.children.isEmpty → s.consumed = 0) : s'.children.isEmpty → s'.consumed = 0 := by
  refine h.preserves (I := fun s _ => s.children.isEmpty → s.consumed = 0) (fun hadv hs => ?_) hs
  cases hadv with
  | passed same later resumed =>
    rw [same]
    exact hs
  | child hmember hmost open_ hleast hread => simp [Search.accept]

/-- A structure comes to an end of the data if its frame is empty, or if the first thing that its
search reads does. -/
theorem read_struct_dry (ha : KeepsReader attempt) (hempty : frame.finish ≤ frame.start → C)
    (hfirst : ∀ {last ω τ},
      Advances setup attempt (setup.grammar.attributesOf id).arrangement
        (setup.grammar.membersOf id).toArray frame frames
        (Search.start (setup.grammar.membersOf id)) s last ω →
      StepsTo setup attempt (setup.grammar.attributesOf id).arrangement
        (setup.grammar.membersOf id).toArray frame frames last ω (.ended last true) τ →
      last.consumed = 0 → C) :
    FaultsFrom (EndsOnly C) (readStruct setup attempt frame frames id declared) s := by
  -- what a search throws itself is no end of the data, which would have ended it
  have hattempts : ∀ member ∈ (setup.grammar.membersOf id).toArray,
      Faults (fun fault => fault.isEof = false → EndsOnly C fault) (attempt member) := by
    rintro _ _ _ fault _ _ hmore rfl
    cases hmore
  simp only [FaultsFrom, read_struct_run]
  refine bind_faults_from (search_faults nofun hattempts _ _ _ _ _ _) fun {found τ} hsearch => ?_
  · obtain ⟨last,dry⟩ := found
    obtain ⟨ω,hadv,hend⟩ := search_ends ha hsearch
    refine finish_struct_faults (fun hnone hdry _ => ?_) (fun hnone _ => ?_) _ _ _ _ _
    · cases hdry
      exact hfirst hadv hend (hadv.unread (fun _ => rfl) hnone)
    · exact hempty (Nat.le_of_sub_eq_zero hnone)

theorem read_with_dry {attempt : List Frame → ElementId → DecodeM μ Value}
    (hkind : ∀ {frame declared ρ}, Opening setup frames id s frame declared ρ →
      FaultsFrom (EndsOnly C)
        (readKind setup (attempt (frame :: frames)) frame (frame :: frames) id declared) ρ) :
    FaultsFrom (EndsOnly C) (readWith setup attempt frames id) s := by
  refine bind_faults_from (cursor_faults s) fun hcursor => ?_
  obtain ⟨rfl,rfl⟩ := cursor_ok hcursor
  refine bind_faults_from (limit_of_faults frames s) fun hlimit => ?_
  rw [limit_of_run] at hlimit
  cases hlimit
  refine bind_faults_from (byte_length_faults setup frames id s) fun {declared ρ} hlength => ?_
  refine bind_faults_from (log_faults _ ρ) fun hlog => ?_
  obtain rfl := log_ok hlog
  have hquiet := (byte_length_quiet setup frames id).of_run hlength
  have hopen : Opening setup frames id s
      (Frame.opened id s.source.position (limitAt frames s) declared) declared
      (ρ.noted (.reading s.source.position id)) :=
    ⟨rfl,⟨ρ,hlength⟩,hquiet.trans (State.noted_quiet ρ _)⟩
  refine outcome_bind_faults_from (hkind hopen) fun {result υ} _ hresult => ?_
  cases result with
  | error fault => exact bind_faults (log_faults _) (fun _ => throw_faults (hresult fault rfl)) υ
  | ok v =>
    refine bind_faults (log_faults _) (fun _ => ?_) υ
    refine bind_faults (check_read_faults (fun _ => nofun) v) fun _ => ?_
    exact bind_faults (record_value_faults nofun id v) fun _ => pure_faults _

end

def outermost (child : ElementId) (χ : State μ) (inner : List (Opened μ)) :
    ElementId × State μ :=
  match inner.getLast? with
  | none => (child,χ)
  | some o => (o.frame.element,o.since)

/-- The frame around a call for `id` has no bytes at the cursor, or it reads there an element,
itself or one inside, that declares a length of nothing. -/
def DriedUp (setup : Setup μ) (σ : State μ) (opened : List (Opened μ)) (id : ElementId)
    (τ : State μ) : Prop :=
  limitAt (stackOf σ.source.length opened) τ ≤ τ.source.position ∨
    ∃ room inner child χ, Called setup σ room (inner ++ opened) child χ ∧
      outermost child χ inner = (id,τ) ∧ χ.source.position = τ.source.position ∧
      (byteLength setup (stackOf σ.source.length (inner ++ opened)) child χ).1 = .ok (some 0)

section
variable {setup : Setup μ} {σ τ ρ υ χ : State μ} {room : Nat} {opened : List (Opened μ)}
  {id child : ElementId} {frame : Frame} {declared : Option Nat}

theorem called_limit (call : Called setup σ room opened id τ) :
    limitAt (stackOf σ.source.length opened) τ ≤ max τ.source.position σ.source.length := by
  induction call with
  | element id offset => exact Nat.le_max_right _ _
  | round hleast hmost rounds room inside => exact Nat.le_max_right _ _
  | @member _ _ _ _ ρ υ ω φ χ frame _ _ s _ _ call opening kind search hmember hmost open_ hleast
      ih =>
    have hbounds := opening.bounds
    have hplace : χ.source.position = frame.start + s.consumed :=
      (child_quiet hmost hleast).position
    show frame.finish ≤ _
    omega
  | @target _ _ _ _ ρ υ frame _ _ call opening kind linked ih =>
    have hbounds := opening.bounds
    have hplace := opening.position
    show frame.finish ≤ _
    omega

/-- An empty frame is that of an element without bytes around it, or of one without its own. -/
theorem Called.dried (call : Called setup σ room opened id τ)
    (opening : Opening setup (stackOf σ.source.length opened) id τ frame declared ρ)
    (hempty : frame.finish ≤ frame.start) : DriedUp setup σ opened id τ := by
  by_cases hlimit : limitAt (stackOf σ.source.length opened) τ ≤ τ.source.position
  · exact .inl hlimit
  · refine .inr ⟨room,[],id,τ,call,rfl,rfl,?_⟩
    obtain ⟨_,hlength⟩ := opening.length
    have hframe := opening.frame
    rw [hframe] at hempty
    simp only [Frame.opened] at hempty
    cases declared with
    | none =>
      simp only at hempty
      omega
    | some length =>
      have hzero : length = 0 := by
        simp only at hempty
        omega
      rw [hzero] at hlength
      exact congrArg Prod.fst hlength

theorem outermost_append (child : ElementId) (χ : State μ) (inner : List (Opened μ))
    (o : Opened μ) : outermost child χ (inner ++ [o]) = (o.frame.element,o.since) := by
  rw [outermost, List.getLast?_concat]

/-- What has dried up inside of an element, where it begins, has dried up for the element. -/
theorem Called.dried_inside (call : Called setup σ room opened id τ)
    (opening : Opening setup (stackOf σ.source.length opened) id τ frame declared ρ)
    (hplace : χ.source.position = frame.start)
    (h : DriedUp setup σ (⟨frame,τ⟩ :: opened) child χ) : DriedUp setup σ opened id τ := by
  rcases h with hlimit | ⟨room',inner,deeper,φ,hcall,-,hdeep,hlength⟩
  · rw [hplace] at hlimit
    exact call.dried opening hlimit
  · rw [List.append_cons inner (⟨frame,τ⟩ : Opened μ) opened] at hcall hlength
    refine .inr ⟨room',inner ++ [(⟨frame,τ⟩ : Opened μ)],deeper,φ,hcall,?_,?_,hlength⟩
    · rw [outermost_append, opening.frame]
      rfl
    · rw [hdeep, hplace]
      exact opening.bounds.1

theorem Called.backed (call : Called setup σ room opened id τ) (hg : setup.grammar.Linked)
    (hσ : σ.source.InMemory)
    (opening : Opening setup (stackOf σ.source.length opened) id τ frame declared ρ) :
    Backed frame ρ := by
  have hreader : State.SameReader σ ρ :=
    Lasting.trans (called_held hg call).reader opening.quiet.reader
  refine ⟨hreader.in_memory hσ,?_⟩
  have hlimit := called_limit call
  have hbounds := opening.bounds
  have hplace := opening.position
  have hlength := hreader.length
  omega

theorem called_dry (hg : setup.grammar.Linked) (hσ : σ.source.InMemory)
    (call : Called setup σ room opened id τ) :
    FaultsFrom (EndsOnly (DriedUp setup σ opened id τ))
      (readElement setup room (stackOf σ.source.length opened) id) τ := by
  -- A structure or a reference comes to an end where something inside has come to it, at the place
  -- of the structure itself: no member stands before it.
  induction room generalizing opened id τ with
  | zero => exact throw_faults nofun τ
  | succ room ih =>
    refine read_with_dry fun {frame declared ρ} opening => ?_
    have hstart := opening.bounds.1.trans opening.position.symm
    cases hkind : setup.grammar.kind id with
    | struct settings =>
      simp only [readKind, hkind]
      refine read_struct_dry (read_element_reader setup _ _) (call.dried opening) ?_
      intro last ω τ' hadv hend hnone
      cases hend with
      | dry hmember hmost open_ hleast hread resumed =>
        have hchild := Called.member call opening hkind hadv hmember hmost open_ hleast
        have hplace := (child_quiet hmost hleast).position
        rw [hnone] at hplace
        exact call.dried_inside opening hplace (ih hchild _ _ hread rfl)
    | structRef link =>
      simp only [readKind, hkind, readReference]
      cases htarget : (setup.grammar.attributesOf id).target with
      | none => exact throw_faults nofun ρ
      | some target =>
        have hcall := Called.target call opening hkind htarget
        refine bind_faults_from (fun fault υ hread hend => ?_) fun _ => pure_faults _ _
        exact call.dried_inside opening hstart.symm (ih hcall fault υ hread hend)
    | grammar => simpa only [readKind, hkind] using throw_faults nofun ρ
    | padding => simpa only [readKind, hkind] using throw_faults nofun ρ
    | grammarRef file => simpa only [readKind, hkind] using throw_faults nofun ρ
    | _ =>
      intro fault υ hread hend
      refine call.dried opening ?_
      rw [hstart]
      exact read_leaf_dry _ _ (by rw [hkind]; rfl) (call.backed hg hσ opening) fault υ hread hend

end

/-- In memory, an element that is read anywhere in a decode comes to an end of the data only if the
frame around it has no bytes left at the cursor, or if it reads there an element that declares a
length of nothing, which may be the element itself. -/
theorem data_end_reached {authored : Grammar} {setup : Setup μ}
    (hg : authored.resolve = .ok setup.grammar) {σ τ υ : State μ} (hσ : σ.source.InMemory)
    {room : Nat} {opened : List (Opened μ)} {id : ElementId}
    (call : Called setup σ room opened id τ)
    (hend : readElement setup room (stackOf σ.source.length opened) id τ = (.error .eof,υ)) :
    DriedUp setup σ opened id τ :=
  called_dry (Grammar.resolve_linked hg) hσ call _ _ hend rfl

def hollow : Grammar :=
  let g := (Grammar.new "hollow").add (Element.struct "outer")
  let g := (g.addChild 1 (((Element.struct "record").withLength (.literal 0)).withLeast
    (.literal 0))).toOption.getD g
  let g := (g.addChild 2 ((Element.number "inside").withLength (.literal 1))).toOption.getD g
  let g := (g.addChild 1 ((Element.number "tail").withLength (.literal 1))).toOption.getD g
  g.setStart (.index 1)

def hollowSetup : Setup Unit := Setup.plain hollow

def hollowBytes : State Unit := bytesState #[7]

def hollowOpened : Opened Unit :=
  { frame := ⟨1,0,1⟩, since := hollowBytes.begun hollowSetup 0 }

def hollowRead : Except DecodeFault Value × State Unit :=
  readElement hollowSetup 31 (stackOf (μ := Unit) 1 []) 1 hollowOpened.since

theorem hollow_called : Called hollowSetup hollowBytes 31 [] 1 hollowOpened.since := .element 1 0

theorem hollow_dried_up :
    hollowRead.1 = .error .eof ∧
      ∃ room inner child χ, Called hollowSetup hollowBytes room (inner ++ []) child χ ∧
        outermost child χ inner = (1,hollowOpened.since) ∧ χ.source.position = 0 ∧
        (byteLength hollowSetup (stackOf 1 (inner ++ [])) child χ).1 = .ok (some 0) := by
  have hg : hollow.resolve = .ok hollowSetup.grammar := Grammar.resolve_sound (by decide +kernel)
  have hend : hollowRead.1 = .error .eof := fault_of_some.mp (by decide +kernel)
  have hrun : hollowRead = (.error .eof,hollowRead.2) := Prod.ext hend rfl
  refine ⟨hend,?_⟩
  rcases data_end_reached hg (of_bytes_in_memory _) hollow_called hrun with hlimit | hinside
  · cases hlimit
  · exact hinside

/-- The record comes to an end of the data with a byte left in the structure around it, which stops
there: the tail is not read, and the whole decode ends as if there were no data. -/
theorem hollow_stops :
    (∃ χ, Called hollowSetup hollowBytes 30 [hollowOpened] 2 χ ∧ χ.source.position = 0 ∧
      limitAt (stackOf 1 [hollowOpened]) χ = 1 ∧
      (byteLength hollowSetup (stackOf 1 [hollowOpened]) 2 χ).1 = .ok (some 0) ∧
      (readElement hollowSetup 30 (stackOf 1 [hollowOpened]) 2 χ).1 = .error .eof) ∧
    (decode hollowSetup hollowBytes).1 = .error .eof ∧
    (decodeElement hollowSetup 4 0 hollowBytes).1.toOption.map Value.length = some 1 := by
  have hopen : Opening hollowSetup (stackOf (μ := Unit) 1 []) 1 hollowOpened.since
      hollowOpened.frame none hollowOpened.since :=
    ⟨rfl,⟨_,by rw [byte_length_none (by decide +kernel)]; rfl⟩,State.Quiet.refl _⟩
  obtain ⟨settings,hkind⟩ := kind_of_struct
    (show (hollowSetup.grammar.kind 1).isStruct by decide +kernel)
  have hmembers : hollowSetup.grammar.membersOf 1 = [2, 4] := by decide +kernel
  have hcall : Called hollowSetup hollowBytes 30 [hollowOpened] 2
      (hollowOpened.since.moved 0) := by
    refine .member hollow_called hopen hkind (.refl _ _) ?_
      (most_count_literal (n := 1) (by decide +kernel) (by decide)) ?_
      (bound_literal (n := 0) (by decide +kernel))
    · rw [hmembers]
      rfl
    · rw [hmembers]
      rfl
  exact ⟨⟨_,hcall,rfl,rfl,congrArg Prod.fst (run_of_option (by decide +kernel)),
    fault_of_some.mp (by decide +kernel)⟩,fault_of_some.mp (by decide +kernel),by decide +kernel⟩

end ByteGrammar
