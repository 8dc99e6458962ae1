import ByteGrammar.Proofs.Decode.Tally

/-!
# The forms of courses

What a course of each kind can be made of: the steps of a search that read a member or do not, the
readers of each kind of element, what becomes of a value that was read, the rounds of the root.
Whatever holds along all courses is proved by one case for each form.
-/

set_option autoImplicit false

namespace ByteGrammar

open Stepwise DecodeM Source Course

variable {μ α : Type}

structure Approach (setup : Setup μ) (members : Array ElementId) (frame : Frame)
    (frames : List Frame) (s : Search) (σ : State μ) (member : ElementId) (least : Nat)
    (υ : State μ) : Prop where
  next : members[s.index]? = some member
  bounds : ∃ most ρ, mostCount setup frames member (σ.moved (frame.start + s.consumed)) =
    (.ok most,ρ) ∧ reached (s.count s.index) most = false ∧
    leastCount setup frames member ρ = (.ok least,υ)

theorem Approach.steady {setup : Setup μ} {members : Array ElementId} {frame : Frame}
    {frames : List Frame} {s : Search} {σ υ : State μ} {member : ElementId} {least : Nat}
    (h : Approach setup members frame frames s σ member least υ) : State.Steady σ υ := by
  obtain ⟨most,ρ,hmost,-,hleast⟩ := h.bounds
  have hquiet := (child_quiet hmost hleast).steady
  exact ⟨hquiet.order,hquiet.values⟩

theorem Approach.index {setup : Setup μ} {members : Array ElementId} {frame : Frame}
    {frames : List Frame} {s : Search} {σ υ : State μ} {member : ElementId} {least : Nat}
    (h : Approach setup members frame frames s σ member least υ) : s.index < members.size :=
  (Array.getElem?_eq_some_iff.mp h.next).1

def Act.onSuccess (act : Act) : Except DecodeFault α → List Act
  | .ok _ => [act]
  | .error _ => []

def Plain (_ : State μ) (acts : List Act) (_ : Option DecodeFault) (_ : State μ) : Prop :=
  ∀ act ∈ acts, act.isRead = false

theorem plain_tally : Tally (Plain : State μ → _) where
  idle _ _ := List.forall_mem_nil _
  append _ hfirst hrest := List.forall_mem_append.mpr ⟨hfirst,hrest⟩
  take _ _ := List.forall_mem_singleton.mpr rfl

section
variable (setup : Setup μ) (id : ElementId) (current : Option Value)

inductive ScriptForm (σ : State μ) : List Act → Except DecodeFault Unit × State μ → Prop
  | absent (none : setup.grammar.script? id = none) :
      ScriptForm σ [] (.error (.breach (.noScript (setup.grammar.label id))),σ)
  | skipped {script : Script} {τ : State μ} (holds : setup.grammar.script? id = some script)
      (bare : setup.runtime = none) (steady : State.Steady σ τ) : ScriptForm σ [] (.ok (),τ)
  | failed {script : Script} {runtime : Runtime μ} {location reason : String} {memory : μ}
      {source : Source} {order : ByteOrder}
      (run : Program.run setup.grammar
        (runtime.run script ⟨setup.grammar,id,σ.history,current⟩ σ.memory) σ.source σ.order =
          ((.error reason,memory),source,order)) :
      ScriptForm σ [.run script location (some reason)]
        (.error (.script script.language location reason),{ σ with source, order, memory })
  | ran {script : Script} {runtime : Runtime μ} {location : String} {memory : μ}
      {source : Source} {order : ByteOrder} (holds : setup.grammar.script? id = some script)
      (installed : setup.runtime = some runtime)
      (run : Program.run setup.grammar
        (runtime.run script ⟨setup.grammar,id,σ.history,current⟩ σ.memory) σ.source σ.order =
          ((.ok (),memory),source,order)) :
      ScriptForm σ [.run script location none] (.ok (),{ σ with source, order, memory })

theorem run_script_form (σ : State μ) :
    ScriptForm setup id current σ (runActs setup id current σ) (runScript setup id current σ) := by
  unfold runActs runScript
  dsimp only
  cases hscript : setup.grammar.script? id with
  | none => exact .absent hscript
  | some script =>
    cases hruntime : setup.runtime with
    | none => exact .skipped hscript hruntime (quiet_holds (log_quiet _) σ)
    | some runtime =>
      simp only [bind_run, cursor_run, get_run, set_run]
      rcases hrun : Program.run setup.grammar
        (runtime.run script ⟨setup.grammar,id,σ.history,current⟩ σ.memory) σ.source σ.order with
        ⟨⟨reason | done, memory⟩, source, order⟩
      · exact .failed hrun
      · exact .ran hscript hruntime hrun

variable {setup id current}

theorem run_script_tallies {P : State μ → List Act → Option DecodeFault → State μ → Prop}
    (h : ∀ {σ acts r}, ScriptForm setup id current σ acts r → P σ acts (faultOf r.1) r.2) :
    Tallies P (runActs setup id current) (runScript setup id current) :=
  fun σ => h (run_script_form setup id current σ)

theorem run_script_plain : Tallies Plain (runActs setup id current)
    (runScript setup id current) := by
  refine run_script_tallies fun h => ?_
  cases h with
  | absent | skipped => exact List.forall_mem_nil _
  | failed | ran => exact List.forall_mem_singleton.mpr rfl

end

section
variable (setup : Setup μ) (course : ElementId → Course μ Value)

inductive StepForm (arrangement : Arrangement) (members : Array ElementId) (frame : Frame)
    (frames : List Frame) (s : Search) (σ : State μ) :
    List Act → Except DecodeFault Search.Stage × State μ → Prop
  | idle {result : Except DecodeFault Search.Stage} {τ : State μ} (steady : State.Steady σ τ)
      (same : ∀ stage, result = .ok stage → stage.search.children = s.children)
      (leads : ∀ s', result = .ok (.searching s') → s' = s.next ∧ s.index < members.size) :
      StepForm arrangement members frame frames s σ [] (result,τ)
  | taken {member : ElementId} {least : Nat} {υ τ : State μ} {acts : List Act} {v : Value}
      (approach : Approach setup members frame frames s σ member least υ)
      (read : course member υ acts (.ok v,τ)) :
      StepForm arrangement members frame frames s σ acts
        (.ok (.searching (s.accept arrangement least v)),τ)
  | refused {member : ElementId} {least : Nat} {υ ω τ : State μ} {acts : List Act}
      {fault : DecodeFault} {result : Except DecodeFault Search.Stage}
      (approach : Approach setup members frame frames s σ member least υ)
      (read : course member υ acts (.error fault,ω))
      (after : afterAttempt arrangement frame s member least υ.history (.error fault) ω =
        (result,τ)) :
      StepForm arrangement members frame frames s σ
        (acts ++ (Act.giveUp member υ.order τ.order).onSuccess result) (result,τ)

inductive KindForm (frame : Frame) (frames : List Frame) (id : ElementId) (declared : Option Nat)
    (ρ : State μ) : List Act → Except DecodeFault Value × State μ → Prop
  | barred (fault : DecodeFault) : KindForm frame frames id declared ρ [] (.error fault,ρ)
  | leaf {acts : List Act} {r : Except DecodeFault Value × State μ}
      (simple : (setup.grammar.kind id).isLeaf) (plain : ∀ act ∈ acts, act.isRead = false)
      (run : ∀ attempt, readKind setup attempt frame frames id declared ρ = r)
      (kept : State.Kept ρ r.2) : KindForm frame frames id declared ρ acts r
  | reference {link : Option Designator} {target : ElementId} {acts : List Act}
      {result : Except DecodeFault Value} {υ : State μ}
      (kind : setup.grammar.kind id = .structRef link)
      (linked : (setup.grammar.attributesOf id).target = some target)
      (read : course target ρ acts (result,υ)) :
      KindForm frame frames id declared ρ acts
        (result.map fun v => { v with element := id },υ)
  | unfound {settings : StructSettings} {acts : List Act} {fault : DecodeFault} {υ : State μ}
      (kind : setup.grammar.kind id = .struct settings)
      (search : searchCourse setup course (setup.grammar.attributesOf id).arrangement
        (setup.grammar.membersOf id).toArray frame frames
        (Search.start (setup.grammar.membersOf id)) ρ acts (.error fault,υ)) :
      KindForm frame frames id declared ρ acts (.error fault,υ)
  | found {settings : StructSettings} {acts : List Act} {found : Search × Bool} {υ τ : State μ}
      {result : Except DecodeFault Value} (kind : setup.grammar.kind id = .struct settings)
      (search : searchCourse setup course (setup.grammar.attributesOf id).arrangement
        (setup.grammar.membersOf id).toArray frame frames
        (Search.start (setup.grammar.membersOf id)) ρ acts (.ok found,υ))
      (finish : finishStruct setup frame frames id declared found υ = (result,τ)) :
      KindForm frame frames id declared ρ acts (result,τ)

end

section
variable {setup : Setup μ} {course : ElementId → Course μ Value}

theorem step_course_form {arrangement : Arrangement} {members : Array ElementId} {frame : Frame}
    {frames : List Frame} {s : Search} {σ : State μ} {acts : List Act}
    {r : Except DecodeFault Search.Stage × State μ}
    (h : stepCourse setup course arrangement members frame frames s σ acts r) :
    StepForm setup course arrangement members frame frames s σ acts r := by
  unfold stepCourse at h
  cases hm : members[s.index]? with
  | none =>
    rw [hm] at h
    obtain ⟨rfl,rfl⟩ := h
    refine .idle (Lasting.refl σ) (fun stage hstage => ?_) nofun
    cases hstage
    rfl
  | some member =>
    rw [hm] at h
    have hindex := (Array.getElem?_eq_some_iff.mp hm).1
    have hseek := silent_bind.mp h
    rw [show DecodeM.seekTo (frame.start + s.consumed) σ =
      (.ok ⟨⟩,σ.moved (frame.start + s.consumed)) from rfl] at hseek
    have hσ : State.Steady σ (σ.moved (frame.start + s.consumed)) := seek_keeps _ σ
    have h1 := silent_bind.mp hseek
    rcases hmost : mostCount setup frames member (σ.moved (frame.start + s.consumed)) with
      ⟨fault | most, ρ⟩ <;> rw [hmost] at h1
    · obtain ⟨rfl,rfl⟩ := h1
      exact .idle (Lasting.trans hσ ((quiet_holds (bound_quiet _ _ _ _ _)).of_run hmost)) nofun
        nofun
    · dsimp only at h1
      have hρ : State.Steady σ ρ :=
        Lasting.trans hσ ((quiet_holds (bound_quiet _ _ _ _ _)).of_run hmost)
      cases hfull : reached (s.count s.index) most with
      | true =>
        rw [if_pos hfull] at h1
        obtain ⟨rfl,rfl⟩ := h1
        refine .idle hρ (fun stage hstage => ?_) fun s' hs' => ?_
        · cases hstage
          rfl
        · cases hs'
          exact ⟨rfl,hindex⟩
      | false =>
        rw [if_neg (by simp [hfull])] at h1
        have h2 := silent_bind.mp h1
        rcases hleast : leastCount setup frames member ρ with ⟨fault | least, υ⟩ <;>
          rw [hleast] at h2
        · obtain ⟨rfl,rfl⟩ := h2
          exact .idle (Lasting.trans hρ ((quiet_holds (bound_quiet _ _ _ _ _)).of_run hleast))
            nofun nofun
        · have happroach : Approach setup members frame frames s σ member least υ :=
            ⟨hm,most,ρ,hmost,hfull,hleast⟩
          have h3 := silent_bind.mp h2
          rw [show (get : DecodeM μ (State μ)) υ = (.ok υ,υ) from rfl] at h3
          obtain ⟨result,ω,first,rest,hread,hafter,rfl⟩ := attempted_bind.mp h3
          cases result with
          | ok v =>
            obtain ⟨rfl,rfl⟩ := hafter
            rw [List.append_nil]
            exact .taken happroach hread
          | error fault =>
            obtain ⟨_,⟨rfl,rfl⟩,rfl⟩ := noting_iff.mp hafter
            rcases hrun : afterAttempt arrangement frame s member least υ.history (.error fault) ω
              with ⟨fault' | stage, τ⟩
            · exact .refused happroach hread hrun
            · exact .refused happroach hread hrun

theorem leaf_course_form {frame : Frame} {frames : List Frame} {id : ElementId}
    {declared : Option Nat} {ρ : State μ} {acts : List Act}
    {r : Except DecodeFault Value × State μ} {done : State μ → List Act} {read : DecodeM μ Value}
    (simple : (setup.grammar.kind id).isLeaf)
    (plain : (setup.grammar.kind id).isLeaf → ∀ act ∈ acts, act.isRead = false)
    (kept : Keeps State.Kept read)
    (run : ∀ attempt, readKind setup attempt frame frames id declared = read)
    (h : performing done read ρ acts r) :
    KindForm setup course frame frames id declared ρ acts r := by
  obtain ⟨rfl,rfl⟩ := h
  exact .leaf simple (plain simple) (fun attempt => congrFun (run attempt) ρ) (kept ρ)

theorem kind_course_form {frame : Frame} {frames : List Frame} {id : ElementId}
    {declared : Option Nat} {ρ : State μ} {acts : List Act}
    {r : Except DecodeFault Value × State μ}
    (h : kindCourse setup course frame frames id declared ρ acts r) :
    KindForm setup course frame frames id declared ρ acts r := by
  have plain : (setup.grammar.kind id).isLeaf → ∀ act ∈ acts, act.isRead = false :=
    fun simple => leaf_tallies plain_tally (fun _ => run_script_plain) simple h
  unfold kindCourse at h
  cases hkind : setup.grammar.kind id with
  | struct settings =>
    rw [hkind] at h
    rcases bind_iff.mp h with ⟨fault,υ,hsearch,rfl⟩ | ⟨found,υ,first,_,hsearch,⟨rfl,rfl⟩,rfl⟩
    · exact .unfound hkind hsearch
    · rw [List.append_nil]
      exact .found hkind hsearch rfl
  | structRef link =>
    rw [hkind] at h
    simp only [referenceCourse] at h
    cases htarget : (setup.grammar.attributesOf id).target with
    | none =>
      rw [htarget] at h
      obtain ⟨rfl,rfl⟩ := h
      exact .barred _
    | some target =>
      rw [htarget] at h
      rcases bind_iff.mp h with ⟨fault,υ,hread,rfl⟩ | ⟨v,υ,first,_,hread,⟨rfl,rfl⟩,rfl⟩
      · exact .reference hkind htarget hread
      · rw [List.append_nil]
        exact .reference hkind htarget hread
  | number settings =>
    rw [hkind] at h
    exact leaf_course_form (by rw [hkind]; rfl) plain
      (read_number_keeps _ _ _ _) (fun _ => by rw [readKind, hkind]) h
  | text settings =>
    rw [hkind] at h
    exact leaf_course_form (by rw [hkind]; rfl) plain
      (read_text_keeps _ _ _ _) (fun _ => by rw [readKind, hkind]) h
  | binary settings =>
    rw [hkind] at h
    exact leaf_course_form (by rw [hkind]; rfl) plain
      (read_binary_keeps _ _ _ _) (fun _ => by rw [readKind, hkind]) h
  | offset settings =>
    rw [hkind] at h
    exact leaf_course_form (by rw [hkind]; rfl) plain
      (read_offset_keeps _ _ _ _) (fun _ => by rw [readKind, hkind]) h
  | custom script =>
    rw [hkind] at h
    exact leaf_course_form (by rw [hkind]; rfl) plain
      (read_custom_kept _ _ _ _) (fun _ => by rw [readKind, hkind]) h
  | script script =>
    rw [hkind] at h
    exact leaf_course_form (by rw [hkind]; rfl) plain
      (read_script_kept _ _) (fun _ => by rw [readKind, hkind]) h
  | scriptElement script =>
    rw [hkind] at h
    exact leaf_course_form (by rw [hkind]; rfl) plain
      (read_script_kept _ _) (fun _ => by rw [readKind, hkind]) h
  | grammarRef file =>
    rw [hkind] at h
    obtain ⟨rfl,rfl⟩ := h
    exact .barred _
  | grammar =>
    rw [hkind] at h
    obtain ⟨rfl,rfl⟩ := h
    exact .barred _
  | padding =>
    rw [hkind] at h
    obtain ⟨rfl,rfl⟩ := h
    exact .barred _

end

section
variable (setup : Setup μ) (course : List Frame → ElementId → Course μ Value)

inductive WithForm (frames : List Frame) (id : ElementId) (σ : State μ) :
    List Act → Except DecodeFault Value × State μ → Prop
  | shut {fault : DecodeFault} {τ : State μ} (steady : State.Steady σ τ) :
      WithForm frames id σ [] (.error fault,τ)
  | dropped {frame : Frame} {declared : Option Nat} {ρ υ τ : State μ} {acts : List Act}
      {result : Except DecodeFault Value} {fault : DecodeFault}
      (opens : opening setup frames id σ = (.ok (frame,declared),ρ))
      (read : kindCourse setup (course (frame :: frames)) frame (frame :: frames) id declared ρ
        acts (result,υ))
      (same : ∀ fault', result = .error fault' → fault' = fault) (steady : State.Steady υ τ) :
      WithForm frames id σ acts (.error fault,τ)
  | counted {frame : Frame} {declared : Option Nat} {ρ υ τ : State μ} {acts : List Act} {v : Value}
      {result : Except DecodeFault Value}
      (opens : opening setup frames id σ = (.ok (frame,declared),ρ))
      (read : kindCourse setup (course (frame :: frames)) frame (frame :: frames) id declared ρ
        acts (.ok v,υ))
      (order : τ.order = υ.order) (values : τ.values = υ.values + 1)
      (outcome : ∀ w, result = .ok w → w = v) :
      WithForm frames id σ (acts ++ [.count τ.values]) (result,τ)

end

section
variable {setup : Setup μ}

theorem with_course_form {course : List Frame → ElementId → Course μ Value} {frames : List Frame}
    {id : ElementId} {σ : State μ} {acts : List Act} {r : Except DecodeFault Value × State μ}
    (h : withCourse setup course frames id σ acts r) :
    WithForm setup course frames id σ acts r := by
  have h1 := silent_bind.mp h
  rcases hopen : opening setup frames id σ with ⟨fault | ⟨frame,declared⟩, ρ⟩ <;> rw [hopen] at h1
  · obtain ⟨rfl,rfl⟩ := h1
    exact .shut ((opening_quiet _ _ _).of_run hopen).steady
  · obtain ⟨result,υ,first,rest,hread,hrest,rfl⟩ := attempted_bind.mp h1
    cases result with
    | error fault =>
      obtain ⟨rfl,rfl⟩ := silent_bind.mp hrest
      rw [List.append_nil]
      refine .dropped hopen hread (fun fault' hfault => ?_) ⟨rfl,rfl⟩
      cases hfault
      rfl
    | ok v =>
      have hlog := silent_bind.mp hrest
      rw [log_run] at hlog
      have hnoted : State.Steady υ (υ.noted (.read frame.start v.element v.offset v.length)) :=
        ⟨rfl,rfl⟩
      have h2 := silent_bind.mp hlog
      rcases hcheck : checkRead setup v (υ.noted (.read frame.start v.element v.offset v.length))
        with ⟨fault | u, ω⟩ <;> rw [hcheck] at h2
      · obtain ⟨rfl,rfl⟩ := h2
        rw [List.append_nil]
        exact .dropped hopen hread nofun
          (Lasting.trans hnoted ((idle_check_read setup v).steady.of_run hcheck))
      · obtain ⟨more,hmore,rfl⟩ := tell_bind.mp h2
        have hω : State.Steady υ ω :=
          Lasting.trans hnoted ((idle_check_read setup v).steady.of_run hcheck)
        have hcounted : ∀ {τ : State μ} {result : Except DecodeFault Value}, τ.order = ω.order →
            τ.values = ω.values + 1 → (∀ w, result = .ok w → w = v) →
            WithForm setup course frames id σ (first ++ [.count (ω.values + 1)]) (result,τ) := by
          intro τ result horder hvalues hout
          rw [← hvalues]
          exact .counted hopen hread (horder.trans hω.order) (hvalues.trans (by rw [hω.values]))
            hout
        have h3 := silent_bind.mp hmore
        rw [record_value_run] at h3
        by_cases hover : setup.options.maxValues < ω.values + 1
        · rw [if_pos hover] at h3
          obtain ⟨rfl,rfl⟩ := h3
          exact hcounted rfl rfl nofun
        · rw [if_neg hover] at h3
          obtain ⟨rfl,rfl⟩ := h3
          refine hcounted rfl rfl fun w hw => ?_
          cases hw
          rfl

end

inductive RoundForm (course : Course μ Value) (id : ElementId) (least length : Nat)
    (read : Array Value × Nat) (σ : State μ) :
    List Act → Except DecodeFault (Turn (Array Value × Nat) (Array Value × Nat)) × State μ → Prop
  | full : RoundForm course id least length read σ [] (.ok (.ended read),σ)
  | taken {v : Value} {τ : State μ} {acts : List Act} (inside : read.2 < length)
      (attempt : course (σ.moved read.2) acts (.ok v,τ)) :
      RoundForm course id least length read σ acts
        (.ok (if v.length = 0 then .ended (read.1.push v,read.2 + v.length)
          else .on (read.1.push v,read.2 + v.length)),τ)
  | refused {acts : List Act} {fault : DecodeFault} {ω τ : State μ}
      {result : Except DecodeFault (Array Value × Nat)}
      (inside : read.2 < length) (attempt : course (σ.moved read.2) acts (.error fault,ω))
      (after : stopAfter least read.1 read.2 σ.history fault ω = (result,τ)) :
      RoundForm course id least length read σ
        (acts ++ (Act.giveUp id σ.order τ.order).onSuccess result) (result.map .ended,τ)

theorem round_course_form {course : Course μ Value} {id : ElementId} {least : Nat}
    {most : Option Nat} {length : Nat} {read : Array Value × Nat} {σ : State μ} {acts : List Act}
    {r : Except DecodeFault (Turn (Array Value × Nat) (Array Value × Nat)) × State μ}
    (h : roundCourse course id least most length read σ acts r) :
    RoundForm course id least length read σ acts r := by
  unfold roundCourse at h
  by_cases hfull : reached read.1.size most || length ≤ read.2
  · rw [if_pos hfull] at h
    obtain ⟨rfl,rfl⟩ := h
    exact .full
  · rw [if_neg hfull] at h
    obtain ⟨-,hin⟩ : reached read.1.size most = false ∧ read.2 < length := by simpa using hfull
    have hseek := silent_bind.mp h
    rw [show DecodeM.seekTo read.2 σ = (.ok ⟨⟩,σ.moved read.2) from rfl] at hseek
    have hget := silent_bind.mp hseek
    rw [show (get : DecodeM μ (State μ)) (σ.moved read.2) =
      (.ok (σ.moved read.2),σ.moved read.2) from rfl] at hget
    obtain ⟨result,ω,first,rest,hread,hrest,rfl⟩ := attempted_bind.mp hget
    cases result with
    | ok v =>
      obtain ⟨rfl,rfl⟩ := hrest
      rw [List.append_nil]
      exact .taken hin hread
    | error fault =>
      obtain ⟨_,⟨rfl,rfl⟩,rfl⟩ := noting_iff.mp hrest
      have hsaved : (σ.moved read.2).history = σ.history := rfl
      rw [bind_run, hsaved]
      rcases hrun : stopAfter least read.1 read.2 σ.history fault ω with ⟨fault' | last, τ⟩
      · exact .refused hin hread hrun
      · exact .refused hin hread hrun

def roundsCourse (setup : Setup μ) (length least : Nat) (most : Option Nat) :
    Array Value × Nat → Course μ (Array Value × Nat) :=
  loop id (roundCourse (inRootCourse setup length setup.grammar.start) setup.grammar.start least
    most length)

inductive RootForm (setup : Setup μ) (length : Nat) (σ : State μ) :
    List Act → Except DecodeFault Value × State μ → Prop
  | barred {fault : DecodeFault} {τ : State μ} (steady : State.Steady σ τ) :
      RootForm setup length σ [] (.error fault,τ)
  | stopped {least : Nat} {most : Option Nat} {ρ υ τ : State μ} {acts : List Act}
      {fault : DecodeFault}
      (hleast : leastCount setup [⟨Grammar.root,0,length⟩] setup.grammar.start σ = (.ok least,ρ))
      (hmost : mostCount setup [⟨Grammar.root,0,length⟩] setup.grammar.start ρ = (.ok most,υ))
      (rounds : roundsCourse setup length least most (#[],0) υ acts (.error fault,τ)) :
      RootForm setup length σ acts (.error fault,τ)
  | finished {least : Nat} {most : Option Nat} {ρ υ ω τ : State μ} {acts : List Act}
      {read : Array Value × Nat} {result : Except DecodeFault Value}
      (hleast : leastCount setup [⟨Grammar.root,0,length⟩] setup.grammar.start σ = (.ok least,ρ))
      (hmost : mostCount setup [⟨Grammar.root,0,length⟩] setup.grammar.start ρ = (.ok most,υ))
      (rounds : roundsCourse setup length least most (#[],0) υ acts (.ok read,ω))
      (finish : finishRoot setup least read ω = (result,τ)) :
      RootForm setup length σ acts (result,τ)

section
variable {setup : Setup μ}

theorem root_course_form {length : Nat} {σ : State μ} {acts : List Act}
    {r : Except DecodeFault Value × State μ} (h : rootCourse setup length σ acts r) :
    RootForm setup length σ acts r := by
  have h1 := silent_bind.mp h
  rcases hleast : leastCount setup [⟨Grammar.root,0,length⟩] setup.grammar.start σ with
    ⟨fault | least, ρ⟩ <;> rw [hleast] at h1
  · obtain ⟨rfl,rfl⟩ := h1
    exact .barred ((quiet_holds (bound_quiet _ _ _ _ _)).of_run hleast)
  · have h2 := silent_bind.mp h1
    rcases hmost : mostCount setup [⟨Grammar.root,0,length⟩] setup.grammar.start ρ with
      ⟨fault | most, υ⟩ <;> rw [hmost] at h2
    · obtain ⟨rfl,rfl⟩ := h2
      exact .barred (((bound_quiet _ _ _ _ _).of_run hleast).trans
        ((bound_quiet _ _ _ _ _).of_run hmost)).steady
    · rcases bind_iff.mp h2 with ⟨fault,τ,hrounds,rfl⟩ | ⟨read,ω,first,_,hrounds,⟨rfl,rfl⟩,rfl⟩
      · exact .stopped hleast hmost hrounds
      · rw [List.append_nil]
        exact .finished hleast hmost hrounds rfl

theorem decode_course_form {σ : State μ} {acts : List Act}
    {r : Except DecodeFault Value × State μ} (h : decodeCourse setup σ acts r) :
    ∃ result, rootCourse setup σ.source.length
        ((σ.begun setup 0).noted (.decoding σ.source.length)) acts (result,r.2) ∧
      ∀ v, r.1 = .ok v → result = .ok v := by
  have hroot := silent_bind.mp (silent_bind.mp (silent_bind.mp (silent_bind.mp h)))
  rcases bind_iff.mp hroot with ⟨fault,τ,hfirst,rfl⟩ | ⟨v,υ,first,_,hfirst,⟨rfl,rfl⟩,rfl⟩
  · exact ⟨.error fault,hfirst,nofun⟩
  · refine ⟨.ok v,?_,fun w hw => ?_⟩
    · rw [List.append_nil, check_root_state]
      exact hfirst
    · obtain ⟨rfl,-⟩ := check_root_ok (Prod.ext hw rfl : checkRoot setup v υ = (.ok w,_))
      rfl

theorem decode_element_course_form {id : ElementId} {offset : Nat} {σ : State μ}
    {acts : List Act} {r : Except DecodeFault Value × State μ}
    (h : decodeElementCourse setup id offset σ acts r) :
    inRootCourse setup σ.source.length id (σ.begun setup offset) acts r :=
  silent_bind.mp (silent_bind.mp (silent_bind.mp h))

end

end ByteGrammar
