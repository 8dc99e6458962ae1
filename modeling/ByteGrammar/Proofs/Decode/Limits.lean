import ByteGrammar.Proofs.Decode.Shape

/-!
# What the limits of a decode come to

A limit that is met ends the whole decode: nothing that fails on it is given up for something
else. So a decode that meets neither limit goes the same way under wider ones. Values are counted
as they are produced and frames are opened one in the other, so that the tree of a decode has no
more nodes than were counted and is no deeper than frames may be open.
-/

set_option autoImplicit false

namespace ByteGrammar

open Stepwise DecodeM Source Value

variable {μ α β : Type}

def DecodeFault.isLimit : DecodeFault → Bool
  | depthExceeded _ | valuesExceeded _ => true
  | _ => false

theorem limit_fatal {fault : DecodeFault} (h : fault.isLimit) : fault.isFatal := by
  cases fault <;> first | rfl | cases h

def Uncut (result : Except DecodeFault α) : Prop :=
  ∀ fault, result = .error fault → fault.isLimit = false

theorem ok_uncut (a : α) : Uncut (.ok a) := nofun

theorem error_uncut {fault : DecodeFault} :
    Uncut (.error fault : Except DecodeFault α) ↔ fault.isLimit = false := by
  constructor
  · exact fun h => h fault rfl
  · intro h _ hfault
    cases hfault
    exact h

def Setup.limited (setup : Setup μ) (depth values : Nat) : Setup μ :=
  { setup with options := { setup.options with maxDepth := depth, maxValues := values } }

/-- From at most `most` values on, the second action does what the first does and there are still
at most so many, unless a limit cuts the first one short. -/
def Prolongs (most : Nat) (short long : DecodeM μ α) : Prop :=
  ∀ s, s.values ≤ most → Uncut (short s).1 → long s = short s ∧ (short s).2.values ≤ most

section
variable {most : Nat}

theorem uncounted_prolongs {action : DecodeM μ α} (h : Keeps State.Uncounted action) :
    Prolongs most action action := fun s hs _ =>
  ⟨rfl,Nat.le_trans (Nat.le_of_eq (h s)) hs⟩

theorem kept_prolongs {action : DecodeM μ α} (h : Keeps State.Kept action) :
    Prolongs most action action := uncounted_prolongs (h.mono State.Kept.values)

theorem quiet_prolongs {action : DecodeM μ α} (h : Keeps State.Quiet action) :
    Prolongs most action action := uncounted_prolongs (quiet_holds h)

theorem cut_prolongs {fault : DecodeFault} (h : fault.isLimit) (long : DecodeM μ α) :
    Prolongs most (throw fault) long := by
  intro s _ hcut
  have hno : fault.isLimit = false := error_uncut.mp hcut
  rw [h] at hno
  cases hno

theorem bind_prolongs {short long : DecodeM μ α} {f f' : α → DecodeM μ β}
    (hm : Prolongs most short long) (hf : ∀ a, Prolongs most (f a) (f' a)) :
    Prolongs most (short >>= f) (long >>= f') := by
  intro s hs hcut
  have hms := hm s hs
  rw [bind_run] at hcut ⊢
  rw [bind_run]
  rcases hrun : short s with ⟨e | a, t⟩ <;> rw [hrun] at hcut hms
  · obtain ⟨hsame,hle⟩ := hms (error_uncut.mpr (error_uncut.mp hcut))
    rw [hsame]
    exact ⟨rfl,hle⟩
  · obtain ⟨hsame,hle⟩ := hms (ok_uncut a)
    rw [hsame]
    exact hf a t hle hcut

theorem outcome_prolongs {short long : DecodeM μ α} {f f' : Except DecodeFault α → DecodeM μ β}
    (hm : Prolongs most short long) (hf : ∀ result, Prolongs most (f result) (f' result))
    (hcut : ∀ fault s, fault.isLimit → ¬Uncut (f (.error fault) s).1) :
    Prolongs most (outcome short >>= f) (outcome long >>= f') := by
  intro s hs h
  rw [bind_run, outcome_run] at h ⊢
  rw [bind_run, outcome_run]
  have huncut : Uncut (short s).1 := by
    intro fault hfault
    rw [hfault] at h
    exact Bool.eq_false_iff.mpr fun hlimit => hcut fault _ hlimit h
  obtain ⟨hsame,hle⟩ := hm s hs huncut
  rw [hsame]
  exact hf _ _ hle h

theorem fatal_cut {fault : DecodeFault} (h : fault.isLimit) (f : PUnit → DecodeM μ α)
    (s : State μ) : ¬Uncut ((throw fault >>= f : DecodeM μ α) s).1 := by
  intro hcut
  have hfalse := hcut fault rfl
  rw [h] at hfalse
  cases hfalse

end

section
variable {setup : Setup μ} {depth values : Nat}

theorem record_value_prolongs (hv : setup.options.maxValues ≤ values) (id : ElementId)
    (v : Value) :
    Prolongs setup.options.maxValues (recordValue setup id v)
      (recordValue (setup.limited depth values) id v) := by
  intro s hs hcut
  rw [record_value_run] at hcut ⊢
  rw [record_value_run]
  by_cases hover : setup.options.maxValues < s.values + 1
  · rw [if_pos hover] at hcut
    cases hcut _ rfl
  · have hover' : ¬(setup.limited depth values).options.maxValues < s.values + 1 := by
      simp only [Setup.limited]
      omega
    rw [if_neg hover, if_neg hover']
    exact ⟨rfl,Nat.le_of_not_lt hover⟩

section
variable {attempt attempt' : ElementId → DecodeM μ Value}
  (ha : ∀ id, Prolongs setup.options.maxValues (attempt id) (attempt' id))

include ha

theorem search_step_prolongs (arrangement : Arrangement) (members : Array ElementId)
    (frame : Frame) (frames : List Frame) (s : Search) :
    Prolongs setup.options.maxValues
      (searchStep setup attempt arrangement members frame frames s)
      (searchStep (setup.limited depth values) attempt' arrangement members frame frames s) := by
  rw [search_step_eq, search_step_eq]
  cases members[s.index]? with
  | none => exact kept_prolongs (pure_keeps _)
  | some member =>
    apply bind_prolongs (kept_prolongs (seek_keeps _)) fun _ => ?_
    apply bind_prolongs (quiet_prolongs (bound_quiet _ _ _ _ _)) fun most => ?_
    split
    · exact kept_prolongs (pure_keeps _)
    · apply bind_prolongs (quiet_prolongs (bound_quiet _ _ _ _ _)) fun least => ?_
      apply bind_prolongs (kept_prolongs get_keeps) fun σ => ?_
      apply outcome_prolongs (ha member)
      · exact fun result => uncounted_prolongs (after_attempt_holds _ _ _ _ _ _ _)
      · intro fault t hlimit
        simp only [afterAttempt, if_pos (limit_fatal hlimit)]
        exact fatal_cut hlimit _ t

theorem search_prolongs (arrangement : Arrangement) (members : Array ElementId) (frame : Frame)
    (frames : List Frame) {steps steps' : Nat} (hsteps : steps ≤ steps') (s : Search) :
    Prolongs setup.options.maxValues
      (search setup attempt arrangement members frame frames steps s)
      (search (setup.limited depth values) attempt' arrangement members frame frames steps' s) := by
  induction steps generalizing steps' s with
  | zero => exact cut_prolongs rfl _
  | succ steps ih =>
    obtain ⟨steps',rfl⟩ : ∃ more, steps' = more + 1 := ⟨steps' - 1,by omega⟩
    rw [search, search]
    apply bind_prolongs (search_step_prolongs ha _ _ _ _ _) fun stage => ?_
    cases stage with
    | searching next => exact ih (by omega) next
    | ended last dry => exact kept_prolongs (pure_keeps _)

theorem read_struct_prolongs (hv : setup.options.maxValues ≤ values) (frame : Frame)
    (frames : List Frame) (id : ElementId) (declared : Option Nat) :
    Prolongs setup.options.maxValues (readStruct setup attempt frame frames id declared)
      (readStruct (setup.limited depth values) attempt' frame frames id declared) := by
  -- The budgets of the two searches differ, so their common start cannot be split off.
  intro s hs
  have hmore : (setup.options.maxValues - s.values + 1) *
      ((setup.grammar.membersOf id).toArray.size + 1) ≤
      (values - s.values + 1) * ((setup.grammar.membersOf id).toArray.size + 1) :=
    Nat.mul_le_mul_right _ (by omega)
  have hgrammar : (setup.limited depth values).grammar = setup.grammar := rfl
  have hcounts : checkCounts (setup.limited depth values) = checkCounts setup := by
    funext frames id absent s index members
    exact check_counts_congr hgrammar _ _ _ _ _ _
  have hfinish : ∀ found, Prolongs setup.options.maxValues
      (finishStruct setup frame frames id declared found)
      (finishStruct (setup.limited depth values) frame frames id declared found) := by
    intro found
    simp only [finishStruct, hcounts]
    apply bind_prolongs (kept_prolongs (seek_keeps _)) fun _ => ?_
    apply bind_prolongs (quiet_prolongs (check_counts_quiet _ _ _ _ _ _ _)) fun _ => ?_
    apply bind_prolongs (quiet_prolongs (padding_of_quiet setup _ _ _ _)) fun padding => ?_
    exact bind_prolongs (kept_prolongs (seek_keeps _)) fun _ => kept_prolongs (pure_keeps _)
  rw [read_struct_run, read_struct_run]
  exact bind_prolongs (search_prolongs ha _ _ _ _ hmore _) hfinish s hs

theorem read_reference_prolongs (id : ElementId) :
    Prolongs setup.options.maxValues (readReference setup attempt id)
      (readReference (setup.limited depth values) attempt' id) := by
  have hgrammar : (setup.limited depth values).grammar = setup.grammar := rfl
  unfold readReference
  rw [hgrammar]
  cases (setup.grammar.attributesOf id).target with
  | none => exact kept_prolongs (throw_keeps _)
  | some target => exact bind_prolongs (ha target) fun w => kept_prolongs (pure_keeps _)

theorem read_kind_prolongs (hv : setup.options.maxValues ≤ values) (frame : Frame)
    (frames : List Frame) (id : ElementId) (declared : Option Nat) :
    Prolongs setup.options.maxValues (readKind setup attempt frame frames id declared)
      (readKind (setup.limited depth values) attempt' frame frames id declared) := by
  have hgrammar : (setup.limited depth values).grammar = setup.grammar := rfl
  unfold readKind
  rw [hgrammar]
  cases setup.grammar.kind id with
  | struct settings => exact read_struct_prolongs ha hv frame frames id declared
  | structRef target => exact read_reference_prolongs ha id
  | number settings => exact kept_prolongs (read_number_keeps setup _ _ _)
  | text settings => exact kept_prolongs (read_text_keeps setup _ _ _)
  | binary settings => exact kept_prolongs (read_binary_keeps setup _ _ _)
  | custom script => exact kept_prolongs (read_custom_kept setup _ _ _)
  | offset settings => exact kept_prolongs (read_offset_keeps setup _ _ _)
  | script script => exact kept_prolongs (read_script_kept setup _)
  | scriptElement script => exact kept_prolongs (read_script_kept setup _)
  | grammar => exact kept_prolongs (throw_keeps _)
  | padding => exact kept_prolongs (throw_keeps _)
  | grammarRef file => exact kept_prolongs (throw_keeps _)

end

theorem read_with_prolongs {attempt attempt' : List Frame → ElementId → DecodeM μ Value}
    (ha : ∀ frames id, Prolongs setup.options.maxValues (attempt frames id) (attempt' frames id))
    (hv : setup.options.maxValues ≤ values) (frames : List Frame) (id : ElementId) :
    Prolongs setup.options.maxValues (readWith setup attempt frames id)
      (readWith (setup.limited depth values) attempt' frames id) := by
  have hlog : ∀ event, Prolongs setup.options.maxValues (log event : DecodeM μ Unit) (log event) :=
    fun event => quiet_prolongs (log_quiet event)
  have hlimit : Keeps State.Kept (limitOf frames : DecodeM μ Nat) := by
    intro s
    rw [limit_of_run]
    exact State.Kept.refl s
  apply bind_prolongs (kept_prolongs cursor_keeps) fun start => ?_
  apply bind_prolongs (kept_prolongs hlimit) fun limit => ?_
  apply bind_prolongs (quiet_prolongs (byte_length_quiet setup _ _)) fun declared => ?_
  apply bind_prolongs (hlog _) fun _ => ?_
  apply outcome_prolongs (read_kind_prolongs (ha _) hv _ _ _ _)
  · intro result
    cases result with
    | error fault => exact bind_prolongs (hlog _) fun _ => kept_prolongs (throw_keeps _)
    | ok v =>
      apply bind_prolongs (hlog _) fun _ => ?_
      apply bind_prolongs (quiet_prolongs (check_read_quiet setup _)) fun _ => ?_
      exact bind_prolongs (record_value_prolongs hv _ _) fun _ => kept_prolongs (pure_keeps _)
  · intro fault t hlimit hcut
    have hno : fault.isLimit = false := error_uncut.mp hcut
    rw [hlimit] at hno
    cases hno

/-- An element that is read within the limits is read in the same way under wider ones. -/
theorem read_element_prolongs (hv : setup.options.maxValues ≤ values) {room room' : Nat}
    (hroom : room ≤ room') (frames : List Frame) (id : ElementId) :
    Prolongs setup.options.maxValues (readElement setup room frames id)
      (readElement (setup.limited depth values) room' frames id) := by
  induction room generalizing room' frames id with
  | zero => exact cut_prolongs rfl _
  | succ room ih =>
    obtain ⟨room',rfl⟩ : ∃ more, room' = more + 1 := ⟨room' - 1,by omega⟩
    exact read_with_prolongs (ih (by omega)) hv frames id

theorem repeat_start_prolongs {attempt attempt' : DecodeM μ Value}
    (ha : Prolongs setup.options.maxValues attempt attempt') (least : Nat) (most : Option Nat)
    (length rounds : Nat) (children : Array Value) (consumed : Nat) :
    Prolongs setup.options.maxValues
      (repeatStart setup attempt least most length rounds children consumed)
      (repeatStart (setup.limited depth values) attempt' least most length rounds children
        consumed) := by
  induction rounds generalizing children consumed with
  | zero => exact kept_prolongs (pure_keeps _)
  | succ rounds ih =>
    rw [repeatStart, repeatStart]
    split
    · exact kept_prolongs (pure_keeps _)
    · apply bind_prolongs (kept_prolongs (seek_keeps _)) fun _ => ?_
      apply bind_prolongs (kept_prolongs get_keeps) fun σ => ?_
      apply outcome_prolongs ha
      · intro result
        cases result with
        | error fault => exact uncounted_prolongs (stop_after_holds least _ _ _ fault)
        | ok v =>
          dsimp only
          split
          · exact kept_prolongs (pure_keeps _)
          · exact ih _ _
      · intro fault t hlimit
        simp only [if_pos (limit_fatal hlimit)]
        intro hcut
        have hno : fault.isLimit = false := error_uncut.mp hcut
        rw [hlimit] at hno
        cases hno

theorem read_root_prolongs (hd : setup.options.maxDepth ≤ depth)
    (hv : setup.options.maxValues ≤ values) (length : Nat) :
    Prolongs setup.options.maxValues (readRoot setup length)
      (readRoot (setup.limited depth values) length) := by
  have hattempt : Prolongs setup.options.maxValues (readInRoot setup length setup.grammar.start)
      (readInRoot (setup.limited depth values) length setup.grammar.start) :=
    read_element_prolongs hv (Nat.sub_le_sub_right hd 1) _ _
  apply bind_prolongs (quiet_prolongs (bound_quiet setup _ _ _ _)) fun least => ?_
  apply bind_prolongs (quiet_prolongs (bound_quiet setup _ _ _ _)) fun most => ?_
  apply bind_prolongs (repeat_start_prolongs hattempt _ _ _ _ _ _) fun found => ?_
  dsimp only
  split
  · split <;> exact kept_prolongs (throw_bind_keeps _ _)
  · exact bind_prolongs (kept_prolongs (seek_keeps _)) fun _ => kept_prolongs (pure_keeps _)

theorem decode_prolonged (hd : setup.options.maxDepth ≤ depth)
    (hv : setup.options.maxValues ≤ values) (σ : State μ) (hcut : Uncut (decode setup σ).1) :
    decode (setup.limited depth values) σ = decode setup σ ∧
      (decode setup σ).2.values ≤ setup.options.maxValues := by
  have hcheck : ∀ v, Prolongs setup.options.maxValues (checkRoot setup v)
      (checkRoot (setup.limited depth values) v) :=
    fun v => uncounted_prolongs fun s => congrArg State.values (check_root_state setup v s)
  rw [decode_eq] at hcut ⊢
  rw [decode_eq]
  exact bind_prolongs (read_root_prolongs hd hv _) hcheck _ (Nat.zero_le _) hcut

theorem decode_element_prolonged (hd : setup.options.maxDepth ≤ depth)
    (hv : setup.options.maxValues ≤ values) (id : ElementId) (offset : Nat) (σ : State μ)
    (hcut : Uncut (decodeElement setup id offset σ).1) :
    decodeElement (setup.limited depth values) id offset σ = decodeElement setup id offset σ ∧
      (decodeElement setup id offset σ).2.values ≤ setup.options.maxValues := by
  rw [decode_element_eq] at hcut ⊢
  rw [decode_element_eq]
  exact read_element_prolongs hv (Nat.sub_le_sub_right hd 1) _ _ _ (Nat.zero_le _) hcut

end

def Kind.isFiller : Kind → Bool
  | .padding => true
  | _ => false

def Value.layered (vs : List Value) (depth : Nat) : List (Value × Nat) :=
  vs.flatMap (visit (fun _ _ => true) depth)

def readNodes (g : Resolved) (nodes : List (Value × Nat)) : List (Value × Nat) :=
  nodes.filter fun node => !(g.kind node.1.element).isFiller

def Paid (g : Resolved) (room : Nat) (vs : List Value) (σ τ : State μ) : Prop :=
  ∀ depth, σ.values + (readNodes g (layered vs depth)).length ≤ τ.values ∧
    ∀ node ∈ readNodes g (layered vs depth), depth ≤ node.2 ∧ node.2 < depth + room

section
variable {g : Resolved} {room : Nat} {vs ws : List Value} {v : Value} {σ ρ υ τ : State μ}

theorem layered_one (v : Value) (depth : Nat) :
    layered [v] depth = (v,depth) :: layered v.children (depth + 1) := by
  rw [layered, List.flatMap_singleton, visit_eq, if_pos rfl]
  rfl

theorem read_nodes_cons (node : Value × Nat) (nodes : List (Value × Nat)) :
    (readNodes g (node :: nodes)).length ≤ (readNodes g nodes).length + 1 ∧
      ∀ other ∈ readNodes g (node :: nodes), other = node ∨ other ∈ readNodes g nodes := by
  unfold readNodes
  rw [List.filter_cons]
  split
  · simp
  · exact ⟨Nat.le_succ _,fun _ h => .inr h⟩

theorem paid_nil (h : σ.values ≤ τ.values) : Paid g room [] σ τ := fun _ => ⟨h,nofun⟩

theorem Paid.append (h : Paid g room vs σ ρ) (k : Paid g room ws ρ τ) :
    Paid g room (vs ++ ws) σ τ := by
  intro depth
  obtain ⟨hc,hd⟩ := h depth
  obtain ⟨kc,kd⟩ := k depth
  have hsplit : readNodes g (layered (vs ++ ws) depth) =
      readNodes g (layered vs depth) ++ readNodes g (layered ws depth) := by
    simp [readNodes, layered]
  rw [hsplit, List.length_append]
  exact ⟨by omega,List.forall_mem_append.mpr ⟨hd,kd⟩⟩

theorem Paid.widen (h : Paid g room vs ρ υ) (hσ : σ.values ≤ ρ.values)
    (hτ : υ.values ≤ τ.values) : Paid g room vs σ τ := by
  intro depth
  obtain ⟨hc,hd⟩ := h depth
  exact ⟨by omega,hd⟩

theorem Paid.node (h : Paid g room v.children σ υ) (hτ : υ.values + 1 ≤ τ.values) :
    Paid g (room + 1) [v] σ τ := by
  intro depth
  obtain ⟨hc,hd⟩ := h (depth + 1)
  obtain ⟨hlength,hmem⟩ := read_nodes_cons (g := g) (v,depth) (layered v.children (depth + 1))
  rw [layered_one]
  refine ⟨by omega,fun node hnode => ?_⟩
  rcases hmem node hnode with rfl | hn
  · exact ⟨Nat.le_refl _,by omega⟩
  · have hn' := hd node hn
    omega

theorem Paid.relabelled {w : Value} (h : Paid g room [w] σ υ) (hw : v.children = w.children)
    (hτ : υ.values + 1 ≤ τ.values) : Paid g (room + 1) [v] σ τ := by
  intro depth
  obtain ⟨hc,hd⟩ := h depth
  obtain ⟨hlength,hmem⟩ := read_nodes_cons (g := g) (v,depth) (layered v.children (depth + 1))
  have hsub : List.Sublist (readNodes g (layered v.children (depth + 1)))
      (readNodes g (layered [w] depth)) := by
    rw [layered_one, hw]
    exact (List.sublist_cons_self _ _).filter _
  have hle := hsub.length_le
  rw [layered_one]
  refine ⟨by omega,fun node hnode => ?_⟩
  rcases hmem node hnode with rfl | hn
  · exact ⟨Nat.le_refl _,by omega⟩
  · have hn' := hd node (hsub.subset hn)
    omega

end

section
variable {setup : Setup μ}

theorem Gathered.paid {frame : Frame} {frames : List Frame} {id : ElementId}
    {declared : Option Nat} {s : Search} {ω υ : State μ} {padding : List Value} {room : Nat}
    (hg : setup.grammar.kind setup.grammar.padding = .padding)
    (h : Gathered setup frame frames id declared s ω padding υ) :
    Paid setup.grammar room padding ω υ := by
  rcases h.filled with ⟨rfl,-⟩ | ⟨length,-,-,-,rfl⟩
  · exact paid_nil h.resumed.values
  · intro depth
    have hnone : readNodes setup.grammar (layered [Value.leaf setup.grammar.padding
        (frame.start + s.consumed) (length - s.consumed)] depth) = [] := by
      rw [layered_one]
      simp [readNodes, layered, Value.leaf, hg, Kind.isFiller]
    rw [hnone]
    exact ⟨h.resumed.values,fun _ hnode => absurd hnode List.not_mem_nil⟩

theorem Advance.paid {attempt : ElementId → DecodeM μ Value} {arrangement : Arrangement}
    {members : Array ElementId} {frame : Frame} {frames : List Frame} {room : Nat}
    (ih : ∀ {id σ v τ}, attempt id σ = (.ok v,τ) → Paid setup.grammar room [v] σ τ)
    {s s' : Search} {ρ σ τ : State μ}
    (h : Advance setup attempt arrangement members frame frames s σ s' τ)
    (hs : Paid setup.grammar room s.children.toList ρ σ) :
    Paid setup.grammar room s'.children.toList ρ τ := by
  cases h with
  | passed same later resumed =>
    rw [same]
    exact hs.widen (Nat.le_refl _) resumed.values
  | child hmember hmost open_ hleast hread =>
    rw [accept_children]
    exact hs.append ((ih hread).widen (Nat.le_of_eq (child_quiet hmost hleast).values.symm)
      (Nat.le_refl _))

/-- Whatever is read has been counted with all that is below it. -/
theorem read_element_paid (hg : setup.grammar.kind setup.grammar.padding = .padding) {room : Nat}
    {frames : List Frame} {id : ElementId} {σ τ : State μ} {v : Value}
    (h : readElement setup room frames id σ = (.ok v,τ)) :
    Paid setup.grammar room [v] σ τ := by
  induction room generalizing frames id σ v τ with
  | zero => cases h
  | succ room ih =>
    obtain ⟨frame,declared,ρ,υ,hopen,hreads,hclose⟩ :=
      read_with_ok (read_element_reader setup room) h
    have hσ : σ.values ≤ ρ.values := Nat.le_of_eq hopen.quiet.values.symm
    have hτ : υ.values + 1 ≤ τ.values := Nat.le_of_eq hclose.values.symm
    cases hreads with
    | leaf simple read kept =>
      have hnone : Paid setup.grammar room v.children ρ υ := by
        rw [read.children]
        exact paid_nil (Nat.le_of_eq kept.values.symm)
      exact (hnone.widen hσ (Nat.le_refl _)).node hτ
    | reference kind linked read => exact ((ih read).widen hσ (Nat.le_refl _)).relabelled rfl hτ
    | struct kind search gathered =>
      have hfound := search.preserves (fun hadv hs => hadv.paid ih hs) (paid_nil (Nat.le_refl _))
      exact ((hfound.append (gathered.paid hg)).widen hσ (Nat.le_refl _)).node hτ

theorem read_root_paid (hg : setup.grammar.kind setup.grammar.padding = .padding) {length : Nat}
    {σ τ : State μ} {v : Value} (h : readRoot setup length σ = (.ok v,τ)) :
    Paid setup.grammar (setup.options.maxDepth - 1) v.children σ τ := by
  obtain ⟨ρ,most,children,consumed,υ,hσ,hrounds,rfl,hτ,-⟩ := read_root_ok h
  have hpaid : Paid setup.grammar (setup.options.maxDepth - 1) children.toList ρ υ := by
    apply hrounds.preserves (I := fun children _ σ =>
      Paid setup.grammar (setup.options.maxDepth - 1) children.toList ρ σ)
    · exact fun hr hs => hs.widen (Nat.le_refl _) hr.values
    · intro children consumed σ v τ hread hs
      rw [Array.toList_push]
      have hv : Paid setup.grammar (setup.options.maxDepth - 1) [v] (σ.moved consumed) τ :=
        read_element_paid hg hread
      exact hs.append (hv.widen (Nat.le_refl _) (Nat.le_refl _))
    · exact paid_nil (Nat.le_refl _)
  exact hpaid.widen hσ.values hτ.values

end

section
variable {setup : Setup μ} {attempt : ElementId → DecodeM μ Value} {arrangement : Arrangement}
  {members : Array ElementId} {frame : Frame} {frames : List Frame}

theorem read_element_counted {room : Nat} {id : ElementId} {σ τ : State μ} {v : Value}
    (h : readElement setup room frames id σ = (.ok v,τ)) :
    σ.values < τ.values ∧ τ.values ≤ setup.options.maxValues := by
  cases room with
  | zero => cases h
  | succ room =>
    obtain ⟨frame,declared,ρ,υ,hopen,hreads,hclose⟩ :=
      read_with_ok (read_element_reader setup room) h
    have hρ := hopen.quiet.values
    have hυ := hreads.counts (read_element_reader setup room _)
    have hτ := hclose.values
    exact ⟨by omega,hclose.allowed⟩

def searchBudget (setup : Setup μ) (members : Array ElementId) (s : Search) (σ : State μ) : Nat :=
  (setup.options.maxValues - σ.values) * (members.size + 1) + (members.size + 1 - s.index)

theorem search_budget_pos {s : Search} (h : s.index ≤ members.size) (σ : State μ) :
    0 < searchBudget setup members s σ := by
  unfold searchBudget
  omega

theorem StepsTo.budget
    (ha : ∀ {id σ v τ}, attempt id σ = (.ok v,τ) →
      σ.values < τ.values ∧ τ.values ≤ setup.options.maxValues)
    {s s' : Search} {σ τ : State μ}
    (h : StepsTo setup attempt arrangement members frame frames s σ (.searching s') τ) :
    s'.index ≤ members.size ∧
      searchBudget setup members s' τ < searchBudget setup members s σ := by
  unfold searchBudget
  cases h with
  | passed hmember resumed =>
    have hindex := (Array.getElem?_eq_some_iff.mp hmember).1
    have hmul := Nat.mul_le_mul_right (members.size + 1)
      (Nat.sub_le_sub_left resumed.values setup.options.maxValues)
    simp only [Search.next]
    omega
  | child hmember hmost open_ hleast hread =>
    have hindex := (Array.getElem?_eq_some_iff.mp hmember).1
    have hquiet : _ = σ.values := (child_quiet hmost hleast).values
    obtain ⟨hmore,hle⟩ := ha hread
    have hfewer : setup.options.maxValues - τ.values + 1 ≤ setup.options.maxValues - σ.values := by
      omega
    have hmul := Nat.mul_le_mul_right (members.size + 1) hfewer
    rw [Nat.succ_mul] at hmul
    refine ⟨?_,by omega⟩
    simp only [Search.accept]
    split
    · omega
    · cases arrangement <;> simp only <;> omega

/-- The budget of a search is never what ends it: with a larger one, it goes the same way. -/
theorem search_suffices
    (ha : ∀ {id σ v τ}, attempt id σ = (.ok v,τ) →
      σ.values < τ.values ∧ τ.values ≤ setup.options.maxValues)
    (hreader : KeepsReader attempt) {steps : Nat} {s : Search} {σ : State μ}
    (hs : s.index ≤ members.size) (hsteps : searchBudget setup members s σ ≤ steps)
    (more : Nat) :
    search setup attempt arrangement members frame frames (steps + more) s σ =
      search setup attempt arrangement members frame frames steps s σ := by
  induction steps generalizing s σ with
  | zero =>
    unfold searchBudget at hsteps
    omega
  | succ steps ih =>
    rw [Nat.succ_add, search, search, bind_run, bind_run]
    rcases hstep : searchStep setup attempt arrangement members frame frames s σ with
      ⟨fault | stage, τ⟩
    · rfl
    · cases stage with
      | ended last dry => rfl
      | searching next =>
        obtain ⟨hindex,hless⟩ := (search_step_cases hreader hstep).budget ha
        exact ih hindex (by omega)

theorem read_struct_suffices (room : Nat) (id : ElementId) (declared : Option Nat) (more : Nat)
    (σ : State μ) :
    readStruct setup (readElement setup room frames) frame frames id declared σ =
      (search setup (readElement setup room frames) (setup.grammar.attributesOf id).arrangement
        (setup.grammar.membersOf id).toArray frame frames
        ((setup.options.maxValues - σ.values + 1) *
          ((setup.grammar.membersOf id).toArray.size + 1) + more)
        (Search.start (setup.grammar.membersOf id)) >>=
        finishStruct setup frame frames id declared) σ := by
  rw [read_struct_run, bind_run, bind_run, search_suffices read_element_counted
    (read_element_reader setup room frames) (Nat.zero_le _)]
  simp only [searchBudget, Search.start]
  rw [Nat.succ_mul]
  omega

end

/-- The nodes of a tree that a decode has left with this state keep within the limits: no more
were counted than may be, no fewer than were read, and each has a frame's room above it. -/
structure WithinLimits (setup : Setup μ) (nodes : List (Value × Nat)) (τ : State μ) : Prop where
  counted : τ.values ≤ setup.options.maxValues
  read : (readNodes setup.grammar nodes).length ≤ τ.values
  depth : ∀ node ∈ readNodes setup.grammar nodes, node.2 < setup.options.maxDepth

theorem Paid.within_limits {setup : Setup μ} {depth : Nat} {vs : List Value} {σ τ : State μ}
    (h : Paid setup.grammar (setup.options.maxDepth - 1) vs σ τ) (hd : depth ≤ 1)
    (hτ : τ.values ≤ setup.options.maxValues) : WithinLimits setup (layered vs depth) τ := by
  obtain ⟨hc,hn⟩ := h depth
  refine ⟨hτ,by omega,fun node hnode => ?_⟩
  have hbounds := hn node hnode
  omega

/-- Limits only cut a decode short. What comes of a decode that meets neither limit, be it a value
or a fault, also comes of it under wider limits, with the same state. And a value has been counted
with all that is below it, the label of the whole tree and padding apart, and lies within the
limits. -/
theorem limits_only_cut {authored : Grammar} {setup : Setup μ} {depth values : Nat}
    (hg : authored.resolve = .ok setup.grammar) (hd : setup.options.maxDepth ≤ depth)
    (hv : setup.options.maxValues ≤ values) (σ : State μ) :
    (Uncut (decode setup σ).1 → decode (setup.limited depth values) σ = decode setup σ) ∧
    (∀ id offset, Uncut (decodeElement setup id offset σ).1 →
      decodeElement (setup.limited depth values) id offset σ = decodeElement setup id offset σ) ∧
    (∀ v τ, decode setup σ = (.ok v,τ) → WithinLimits setup (v.outline none).tail τ) ∧
    (∀ id offset v τ, decodeElement setup id offset σ = (.ok v,τ) →
      WithinLimits setup (v.outline none) τ) := by
  have hpadding := (Grammar.resolve_linked hg).padding
  refine ⟨fun hcut => (decode_prolonged hd hv σ hcut).1,
    fun id offset hcut => (decode_element_prolonged hd hv id offset σ hcut).1,?_,?_⟩
  · intro v τ h
    have hτ := (decode_prolonged hd hv σ (by rw [h]; exact ok_uncut v)).2
    rw [h] at hτ
    obtain ⟨ρ,-,hroot⟩ := decode_ok h
    have hnodes : (v.outline none).tail = layered v.children 1 := by
      rw [outline, visit_eq]
      rfl
    rw [hnodes]
    exact (read_root_paid hpadding hroot).within_limits (Nat.le_refl _) hτ
  · intro id offset v τ h
    have hτ := (decode_element_prolonged hd hv id offset σ (by rw [h]; exact ok_uncut v)).2
    rw [h] at hτ
    obtain ⟨ρ,-,hread⟩ := decode_element_ok h
    have hnodes : v.outline none = layered [v] 0 := (List.flatMap_singleton _ _).symm
    rw [hnodes]
    exact (read_element_paid hpadding hread).within_limits (Nat.zero_le _) hτ

def pair : Setup Unit :=
  Setup.limited (Setup.plain words) 2 2

theorem pair_within_limits :
    ∃ v τ, decode pair (bytesState #[7, 8]) = (.ok v,τ) ∧
      decode (pair.limited 32 1000) (bytesState #[7, 8]) = (.ok v,τ) ∧
      WithinLimits pair (v.outline none).tail τ ∧
      Uncut (decodeElement pair 1 1 (bytesState #[7, 8])).1 ∧
      decodeElement (pair.limited 32 1000) 1 1 (bytesState #[7, 8]) =
        decodeElement pair 1 1 (bytesState #[7, 8]) := by
  have hg : words.resolve = .ok pair.grammar := Grammar.resolve_sound (by decide +kernel)
  have hdepth : pair.options.maxDepth ≤ 32 := by decide
  have hvalues : pair.options.maxValues ≤ 1000 := by decide
  obtain ⟨hdecode,helement,hwithin,-⟩ :=
    limits_only_cut hg hdepth hvalues (bytesState #[7, 8])
  obtain ⟨v,τ,hv⟩ := run_ok (r := decode pair (bytesState #[7, 8])) (by decide +kernel)
  obtain ⟨w,υ,hw⟩ := run_ok (r := decodeElement pair 1 1 (bytesState #[7, 8])) (by decide +kernel)
  have hcut : Uncut (decode pair (bytesState #[7, 8])).1 := by
    rw [hv]
    exact ok_uncut v
  have hcut' : Uncut (decodeElement pair 1 1 (bytesState #[7, 8])).1 := by
    rw [hw]
    exact ok_uncut w
  exact ⟨v,τ,hv,(hdecode hcut).trans hv,hwithin v τ hv,hcut',helement 1 1 hcut'⟩

end ByteGrammar
