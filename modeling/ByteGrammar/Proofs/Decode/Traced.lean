import ByteGrammar.Proofs.Decode.Course
import ByteGrammar.Proofs.Decode.Limits

/-!
# The courses of decodes

The acts of each reader, and the courses of all that is built of readers. Searches and rounds go on
here as long as they do. A decode has a course, and every course of it comes to its outcome.
-/

set_option autoImplicit false

namespace ByteGrammar

open Stepwise DecodeM Source Course

variable {μ α : Type}

def following (acts : State μ → List Act) (action : DecodeM μ α) (rest : α → State μ → List Act) :
    State μ → List Act := fun σ =>
  acts σ ++ match action σ with
    | (.ok a,τ) => rest a τ
    | (.error _,_) => []

def noActs : State μ → List Act := fun _ => []

def behind (action : DecodeM μ α) (rest : α → State μ → List Act) : State μ → List Act :=
  following noActs action rest

def takeActs (count : Nat) : State μ → List Act := fun σ =>
  [.take (match Source.read count σ.source with
    | (.ok _,_) => none
    | (.error fault,_) => some fault)]

section
variable (setup : Setup μ) (frame : Frame) (id : ElementId) (declared : Option Nat)

def numberActs : State μ → List Act :=
  behind (integerLength setup id declared) fun length =>
    behind (claim setup frame id length) fun _ => takeActs length

def binaryActs : State μ → List Act :=
  behind (requiredLength setup id declared) fun length =>
    behind (claim setup frame id length) fun _ =>
      if (setup.grammar.binaryValues id).isEmpty then noActs else takeActs length

def scanActs (delimiter : UInt8) (rest : Nat) : Nat → State μ → List Act
  | 0 => if rest = 0 then noActs else takeActs rest
  | strides + 1 =>
    following (takeActs stride) (take stride) fun bytes =>
      match upTo? delimiter bytes with
      | some _ => noActs
      | none => scanActs delimiter rest strides

def delimitedActs (delimiter : UInt8) : State μ → List Act :=
  behind cursor fun start =>
    if frame.available start = 0 then noActs
    else scanActs delimiter (frame.available start % stride) (frame.available start / stride)

def countedActs : State μ → List Act :=
  behind (claim setup frame id 1) fun start =>
    following (takeActs 1) (take 1) fun head =>
      if frame.available start < 1 + lowFirst head then noActs
      else takeActs (1 + lowFirst head - 1)

def textActs : State μ → List Act :=
  match (setup.grammar.attributesOf id).textKind with
  | .zeroTerminated => delimitedActs frame 0
  | .delimited delimiter => delimitedActs frame delimiter
  | .fixedLength =>
    behind (requiredLength setup id declared) fun length =>
      behind (discard (claim setup frame id length)) fun _ => takeActs length
  | .counted => countedActs setup frame id

def runActs (current : Option Value) : State μ → List Act := fun σ =>
  match setup.grammar.script? id, setup.runtime with
  | some script, some runtime =>
    let run := runtime.run script ⟨setup.grammar,id,σ.history,current⟩ σ.memory
    [.run script
      (Text.quote script.name ++ " in " ++ setup.grammar.label id ++ " at offset " ++
        toString σ.source.position)
      (match (run.run setup.grammar σ.source σ.order).1.1 with
        | .ok () => none
        | .error reason => some reason)]
  | _, _ => []

def customActs : State μ → List Act :=
  behind (requiredLength setup id declared) fun length =>
    behind (claim setup frame id length) fun start =>
      behind (seekTo (start + length)) fun _ =>
        if (setup.grammar.attributesOf id).target.isSome then
          runActs setup id (some (Value.leaf id start length))
        else noActs

end

section
variable (setup : Setup μ) (course : ElementId → Course μ Value)

def Search.Stage.turn : Search.Stage → Turn Search (Search × Bool)
  | searching s => .on s
  | ended s dry => .ended (s,dry)

def stepCourse (arrangement : Arrangement) (members : Array ElementId) (frame : Frame)
    (frames : List Frame) (s : Search) : Course μ Search.Stage := do
  match members[s.index]? with
  | none => pure (.ended s false)
  | some member => do
    silent (seekTo (frame.start + s.consumed))
    let most ← silent (mostCount setup frames member)
    if reached (s.count s.index) most then pure (.searching s.next)
    else
      let least ← silent (leastCount setup frames member)
      let saved ← silent get
      match ← attempted (course member) with
      | .ok v => pure (.searching (s.accept arrangement least v))
      | .error fault =>
        noting (silent (afterAttempt arrangement frame s member least saved.history (.error fault)))
          fun σ => .giveUp member saved.order σ.order

def searchCourse (arrangement : Arrangement) (members : Array ElementId) (frame : Frame)
    (frames : List Frame) : Search → Course μ (Search × Bool) :=
  loop Search.Stage.turn (stepCourse setup course arrangement members frame frames)

def structCourse (frame : Frame) (frames : List Frame) (id : ElementId) (declared : Option Nat) :
    Course μ Value := do
  let found ← searchCourse setup course (setup.grammar.attributesOf id).arrangement
    (setup.grammar.membersOf id).toArray frame frames (Search.start (setup.grammar.membersOf id))
  silent (finishStruct setup frame frames id declared found)

def referenceCourse (id : ElementId) : Course μ Value := do
  match (setup.grammar.attributesOf id).target with
  | none => silent (throw (.breach (.noTarget (setup.grammar.label id))))
  | some target =>
    let v ← course target
    pure { v with element := id }

def kindCourse (frame : Frame) (frames : List Frame) (id : ElementId) (declared : Option Nat) :
    Course μ Value :=
  match setup.grammar.kind id with
  | .struct _ => structCourse setup course frame frames id declared
  | .structRef _ => referenceCourse setup course id
  | .number _ =>
    performing (numberActs setup frame id declared) (readNumber setup frame id declared)
  | .text _ => performing (textActs setup frame id declared) (readText setup frame id declared)
  | .binary _ =>
    performing (binaryActs setup frame id declared) (readBinary setup frame id declared)
  | .offset _ => silent (readOffset setup frame id declared)
  | .custom _ =>
    performing (customActs setup frame id declared) (readCustom setup frame id declared)
  | .script _ | .scriptElement _ => performing (runActs setup id none) (readScript setup id)
  | .grammarRef _ =>
    silent (throw (.unsupported (setup.grammar.label id) "decoding a referenced grammar"))
  | .grammar | .padding => silent (throw (.breach (.undecodable (setup.grammar.label id))))

end

def opening (setup : Setup μ) (frames : List Frame) (id : ElementId) :
    DecodeM μ (Frame × Option Nat) := do
  let start ← cursor
  let limit ← limitOf frames
  let declared ← byteLength setup frames id
  log (.reading start id)
  pure (Frame.opened id start limit declared,declared)

def withCourse (setup : Setup μ) (course : List Frame → ElementId → Course μ Value)
    (frames : List Frame) (id : ElementId) : Course μ Value := do
  let (frame, declared) ← silent (opening setup frames id)
  match ← attempted (kindCourse setup (course (frame :: frames)) frame (frame :: frames) id
    declared) with
  | .error fault => do
    silent (log (.failed frame.start id fault))
    silent (throw fault)
  | .ok v => do
    silent (log (.read frame.start v.element v.offset v.length))
    silent (checkRead setup v)
    tell fun σ => .count (σ.values + 1)
    silent (recordValue setup id v)
    pure v

def elementCourse (setup : Setup μ) : Nat → List Frame → ElementId → Course μ Value
  | 0, _, id => do
    tell fun _ => .read 0 id
    silent (throw (.depthExceeded setup.options.maxDepth))
  | room + 1, frames, id => do
    tell fun _ => .read (room + 1) id
    withCourse setup (elementCourse setup room) frames id

def rootRound (attempt : DecodeM μ Value) (least : Nat) (most : Option Nat) (length : Nat)
    (read : Array Value × Nat) : DecodeM μ (Turn (Array Value × Nat) (Array Value × Nat)) := do
  if reached read.1.size most || length ≤ read.2 then pure (.ended read)
  else
    seekTo read.2
    let saved ← get
    match ← outcome attempt with
    | .ok v =>
      let read := (read.1.push v,read.2 + v.length)
      pure (if v.length = 0 then .ended read else .on read)
    | .error fault => do
      let read ← stopAfter least read.1 read.2 saved.history fault
      pure (.ended read)

def roundCourse (course : Course μ Value) (id : ElementId) (least : Nat) (most : Option Nat)
    (length : Nat) (read : Array Value × Nat) :
    Course μ (Turn (Array Value × Nat) (Array Value × Nat)) := do
  if reached read.1.size most || length ≤ read.2 then pure (.ended read)
  else
    silent (seekTo read.2)
    let saved ← silent get
    match ← attempted course with
    | .ok v =>
      let read := (read.1.push v,read.2 + v.length)
      pure (if v.length = 0 then .ended read else .on read)
    | .error fault =>
      noting (silent do
        let read ← stopAfter least read.1 read.2 saved.history fault
        pure (.ended read))
        fun σ => .giveUp id saved.order σ.order

def finishRoot (setup : Setup μ) (least : Nat) (read : Array Value × Nat) : DecodeM μ Value := do
  let (children, consumed) := read
  if children.size < least then
    if children.isEmpty then throw .eof
    throw (.tooFew (setup.grammar.label Grammar.root) (setup.grammar.label setup.grammar.start)
      children.size least)
  seekTo consumed
  pure (Value.spanning Grammar.root 0 children.toList)

def inRootCourse (setup : Setup μ) (length : Nat) (id : ElementId) : Course μ Value :=
  elementCourse setup (setup.options.maxDepth - 1) [⟨Grammar.root,0,length⟩] id

def rootCourse (setup : Setup μ) (length : Nat) : Course μ Value := do
  let start := setup.grammar.start
  let frames := [⟨Grammar.root,0,length⟩]
  let least ← silent (leastCount setup frames start)
  let most ← silent (mostCount setup frames start)
  let read ← loop id (roundCourse (inRootCourse setup length start) start least most length)
    (#[],0)
  silent (finishRoot setup least read)

def decodeCourse (setup : Setup μ) : Course μ Value := do
  silent (reset setup)
  let length ← silent sourceLength
  silent (seekTo 0)
  silent (log (.decoding length))
  let v ← rootCourse setup length
  silent (checkRoot setup v)

def decodeElementCourse (setup : Setup μ) (id : ElementId) (offset : Nat) : Course μ Value := do
  silent (reset setup)
  let length ← silent sourceLength
  silent (seekTo offset)
  inRootCourse setup length id

section
variable {setup : Setup μ} {course : ElementId → Course μ Value}
  {attempt : ElementId → DecodeM μ Value}

theorem step_course_tracks (h : ∀ id, Tracks (course id) (attempt id)) (arrangement : Arrangement)
    (members : Array ElementId) (frame : Frame) (frames : List Frame) (s : Search) :
    Tracks (stepCourse setup course arrangement members frame frames s)
      (searchStep setup attempt arrangement members frame frames s) := by
  rw [search_step_eq]
  unfold stepCourse
  cases members[s.index]? with
  | none => exact silent_tracks _
  | some member =>
    refine bind_tracks (silent_tracks _) fun _ => bind_tracks (silent_tracks _) fun most => ?_
    split
    · exact silent_tracks _
    · refine bind_tracks (silent_tracks _) fun least => ?_
      refine bind_tracks (silent_tracks _) fun saved => ?_
      refine bind_tracks (attempted_tracks (h member)) fun result => ?_
      cases result with
      | ok v => exact silent_tracks _
      | error fault => exact noting_tracks _ (silent_tracks _)

/-- A search needs no more than its budget, from which every step that goes on takes. -/
theorem search_course_along (h : ∀ id, Tracks (course id) (attempt id))
    (hreader : KeepsReader attempt)
    (hcount : ∀ {id σ v τ}, attempt id σ = (.ok v,τ) →
      σ.values < τ.values ∧ τ.values ≤ setup.options.maxValues)
    (arrangement : Arrangement) (members : Array ElementId) (frame : Frame) (frames : List Frame)
    {s : Search} (hs : s.index ≤ members.size) {σ : State μ} {steps : Nat}
    (hsteps : searchBudget setup members s σ ≤ steps) :
    Along (searchCourse setup course arrangement members frame frames s)
      (search setup attempt arrangement members frame frames steps s) σ := by
  have hpos : 0 < searchBudget setup members s σ := search_budget_pos hs σ
  refine loop_along (I := fun s => s.index ≤ members.size)
    (N := fun s σ => searchBudget setup members s σ - 1)
    (fun s => step_course_tracks h arrangement members frame frames s) ?_ ?_ hs (by omega)
  · intro n s
    rw [search]
    congr 1
    funext stage
    cases stage <;> rfl
  · intro s s' σ stage τ hs hstep hview
    cases stage with
    | ended last dry => cases hview
    | searching next =>
      cases hview
      obtain ⟨hindex,hless⟩ := (search_step_cases hreader hstep).budget hcount
      have hpos' : 0 < searchBudget setup members s' τ := search_budget_pos hindex τ
      exact ⟨hindex,by omega⟩

theorem struct_course_tracks (h : ∀ id, Tracks (course id) (attempt id))
    (hreader : KeepsReader attempt)
    (hcount : ∀ {id σ v τ}, attempt id σ = (.ok v,τ) →
      σ.values < τ.values ∧ τ.values ≤ setup.options.maxValues)
    (frame : Frame) (frames : List Frame) (id : ElementId) (declared : Option Nat) :
    Tracks (structCourse setup course frame frames id declared)
      (readStruct setup attempt frame frames id declared) := by
  intro σ
  have hsteps : searchBudget setup (setup.grammar.membersOf id).toArray
      (Search.start (setup.grammar.membersOf id)) σ ≤
      (setup.options.maxValues - σ.values + 1) *
        ((setup.grammar.membersOf id).toArray.size + 1) := by
    simp only [searchBudget, Search.start]
    rw [Nat.succ_mul]
    omega
  have hfound := (search_course_along h hreader hcount
    (setup.grammar.attributesOf id).arrangement _ frame frames (Nat.zero_le _) hsteps).bind
    fun found => silent_tracks (finishStruct setup frame frames id declared found)
  exact ⟨fun hr => hfound.sound hr,hfound.goes⟩

theorem reference_course_tracks (h : ∀ id, Tracks (course id) (attempt id)) (id : ElementId) :
    Tracks (referenceCourse setup course id) (readReference setup attempt id) := by
  unfold referenceCourse readReference
  cases (setup.grammar.attributesOf id).target with
  | none => exact silent_tracks _
  | some target => exact bind_tracks (h target) fun v => silent_tracks _

theorem kind_course_tracks (h : ∀ id, Tracks (course id) (attempt id))
    (hreader : KeepsReader attempt)
    (hcount : ∀ {id σ v τ}, attempt id σ = (.ok v,τ) →
      σ.values < τ.values ∧ τ.values ≤ setup.options.maxValues)
    (frame : Frame) (frames : List Frame) (id : ElementId) (declared : Option Nat) :
    Tracks (kindCourse setup course frame frames id declared)
      (readKind setup attempt frame frames id declared) := by
  unfold kindCourse readKind
  cases setup.grammar.kind id with
  | struct settings => exact struct_course_tracks h hreader hcount frame frames id declared
  | structRef link => exact reference_course_tracks h id
  | number settings => exact performing_tracks _ _
  | text settings => exact performing_tracks _ _
  | binary settings => exact performing_tracks _ _
  | offset settings => exact silent_tracks _
  | custom script => exact performing_tracks _ _
  | script script => exact performing_tracks _ _
  | scriptElement script => exact performing_tracks _ _
  | grammarRef file => exact silent_tracks _
  | grammar => exact silent_tracks _
  | padding => exact silent_tracks _

end

section
variable (setup : Setup μ)

theorem read_with_eq (attempt : List Frame → ElementId → DecodeM μ Value) (frames : List Frame)
    (id : ElementId) :
    readWith setup attempt frames id = opening setup frames id >>= fun opened =>
      outcome (readKind setup (attempt (opened.1 :: frames)) opened.1 (opened.1 :: frames) id
        opened.2) >>= fun result =>
        match result with
        | .error fault => log (.failed opened.1.start id fault) >>= fun _ => throw fault
        | .ok v => log (.read opened.1.start v.element v.offset v.length) >>= fun _ =>
          checkRead setup v >>= fun _ => recordValue setup id v >>= fun _ => pure v := by
  simp only [readWith, opening, bind_assoc, pure_bind]
  rfl

theorem with_course_tracks {course : List Frame → ElementId → Course μ Value}
    {attempt : List Frame → ElementId → DecodeM μ Value}
    (h : ∀ frames id, Tracks (course frames id) (attempt frames id))
    (hreader : ∀ frames, KeepsReader (attempt frames))
    (hcount : ∀ {frames id σ v τ}, attempt frames id σ = (.ok v,τ) →
      σ.values < τ.values ∧ τ.values ≤ setup.options.maxValues)
    (frames : List Frame) (id : ElementId) :
    Tracks (withCourse setup course frames id) (readWith setup attempt frames id) := by
  rw [read_with_eq]
  refine bind_tracks (silent_tracks _) fun opened => ?_
  refine bind_tracks (attempted_tracks
    (kind_course_tracks (h _) (hreader _) hcount _ _ id opened.2)) fun result => ?_
  cases result with
  | error fault => exact bind_tracks (silent_tracks _) fun _ => silent_tracks _
  | ok v =>
    refine bind_tracks (silent_tracks _) fun _ => bind_tracks (silent_tracks _) fun _ => ?_
    exact tell_bind_tracks (bind_tracks (silent_tracks _) fun _ => silent_tracks _)

theorem element_course_tracks (room : Nat) (frames : List Frame) (id : ElementId) :
    Tracks (elementCourse setup room frames id) (readElement setup room frames id) := by
  induction room generalizing frames id with
  | zero => exact tell_bind_tracks (silent_tracks _)
  | succ room ih =>
    exact tell_bind_tracks (with_course_tracks setup ih (read_element_reader setup room)
      read_element_counted frames id)

theorem round_course_tracks {course : Course μ Value} {attempt : DecodeM μ Value}
    (h : Tracks course attempt) (id : ElementId) (least : Nat) (most : Option Nat) (length : Nat)
    (read : Array Value × Nat) :
    Tracks (roundCourse course id least most length read)
      (rootRound attempt least most length read) := by
  unfold roundCourse rootRound
  split
  · exact silent_tracks _
  · refine bind_tracks (silent_tracks _) fun _ => bind_tracks (silent_tracks _) fun saved => ?_
    refine bind_tracks (attempted_tracks h) fun result => ?_
    cases result with
    | ok v => exact silent_tracks _
    | error fault => exact noting_tracks _ (silent_tracks _)

theorem repeat_start_round {attempt : DecodeM μ Value} {least : Nat} {most : Option Nat}
    {length : Nat} (rounds : Nat) (read : Array Value × Nat) :
    repeatStart setup attempt least most length (rounds + 1) read.1 read.2 =
      rootRound attempt least most length read >>= fun turn =>
        match turn with
        | .on read => repeatStart setup attempt least most length rounds read.1 read.2
        | .ended read => pure read := by
  funext σ
  rw [repeatStart, rootRound]
  by_cases hfull : reached read.1.size most || length ≤ read.2
  · rw [if_pos hfull, if_pos hfull]
    rfl
  · rw [if_neg hfull, if_neg hfull]
    simp only [bind_assoc]
    refine congrFun (congrArg (DecodeM.seekTo read.2 >>= ·) (funext fun _ => ?_)) σ
    refine congrArg (get >>= ·) (funext fun saved => ?_)
    refine congrArg (outcome attempt >>= ·) (funext fun result => ?_)
    cases result with
    | error fault =>
      show stopAfter least read.1 read.2 saved.history fault = _
      simp only [bind_assoc, pure_bind, bind_pure]
    | ok v =>
      by_cases hz : v.length = 0
      · simp only [if_pos hz, pure_bind]
      · simp only [if_neg hz, pure_bind]

theorem root_round_on {attempt : DecodeM μ Value} {least : Nat} {most : Option Nat}
    {length : Nat} {read read' : Array Value × Nat} {σ τ : State μ}
    (h : rootRound attempt least most length read σ = (.ok (.on read'),τ)) :
    read.2 < length ∧ ∃ v, attempt (σ.moved read.2) = (.ok v,τ) ∧ v.length ≠ 0 ∧
      read' = (read.1.push v,read.2 + v.length) := by
  unfold rootRound at h
  by_cases hfull : reached read.1.size most || length ≤ read.2
  · rw [if_pos hfull] at h
    cases (pure_ok.mp h).1
  · rw [if_neg hfull] at h
    obtain ⟨-,hin⟩ : reached read.1.size most = false ∧ read.2 < length := by simpa using hfull
    obtain ⟨_,_,hs,h1⟩ := bind_ok.mp h
    obtain rfl := seek_ok hs
    obtain ⟨_,_,hget,h2⟩ := bind_ok.mp h1
    cases hget
    obtain ⟨result,υ,hout,h3⟩ := bind_ok.mp h2
    have hread := outcome_ok hout
    cases result with
    | error fault =>
      obtain ⟨_,_,-,h4⟩ := bind_ok.mp h3
      cases (pure_ok.mp h4).1
    | ok v =>
      obtain ⟨hturn,rfl⟩ := pure_ok.mp h3
      by_cases hz : v.length = 0
      · rw [if_pos hz] at hturn
        cases hturn
      · rw [if_neg hz] at hturn
        cases hturn
        exact ⟨hin,v,hread,hz,rfl⟩

theorem repeat_start_more {attempt : DecodeM μ Value} {least : Nat} {most : Option Nat}
    {length rounds consumed : Nat} (h : length ≤ consumed + rounds) (children : Array Value) :
    repeatStart setup attempt least most length (rounds + 1) children consumed =
      repeatStart setup attempt least most length rounds children consumed := by
  induction rounds generalizing children consumed with
  | zero =>
    have hin : length ≤ consumed := h
    simp only [repeatStart, hin, decide_true, Bool.or_true, if_true]
  | succ rounds ih =>
    conv => lhs; rw [repeatStart]
    conv => rhs; rw [repeatStart]
    split
    · rfl
    · refine congrArg (DecodeM.seekTo consumed >>= ·) (funext fun _ => ?_)
      refine congrArg (get >>= ·) (funext fun saved => ?_)
      refine congrArg (outcome attempt >>= ·) (funext fun result => ?_)
      cases result with
      | error fault => rfl
      | ok v =>
        dsimp only
        split
        · rfl
        · exact ih (by omega) _

theorem rounds_course_tracks {course : Course μ Value} {attempt : DecodeM μ Value}
    (h : Tracks course attempt) (id : ElementId) (least : Nat) (most : Option Nat)
    (length : Nat) :
    Tracks (loop (fun turn => turn) (roundCourse course id least most length) (#[],0))
      (repeatStart setup attempt least most length length #[] 0) := by
  intro σ
  rw [← repeat_start_more setup (Nat.le_of_eq (Nat.zero_add length).symm)]
  refine loop_along (I := fun _ => True) (N := fun read _ => length - read.2)
    (g := fun rounds read => repeatStart setup attempt least most length rounds read.1 read.2)
    (fun read => round_course_tracks h id least most length read)
    (fun rounds read => ?_) ?_ trivial (Nat.lt_succ_self length)
  · rw [repeat_start_round]
    congr 1
    funext turn
    cases turn <;> rfl
  · intro read read' σ turn τ _ hround hturn
    subst hturn
    obtain ⟨hin,v,-,hv,rfl⟩ := root_round_on hround
    exact ⟨trivial,by dsimp only; omega⟩

theorem root_course_tracks (length : Nat) :
    Tracks (rootCourse setup length) (readRoot setup length) := by
  refine bind_tracks (silent_tracks _) fun least => bind_tracks (silent_tracks _) fun most => ?_
  refine bind_tracks (rounds_course_tracks setup (element_course_tracks setup _ _ _) _ _ _ _)
    fun read => ?_
  exact silent_tracks _

/-- A decode goes along its course. -/
theorem decode_course_tracks : Tracks (decodeCourse setup) (decode setup) := by
  refine bind_tracks (silent_tracks _) fun _ => bind_tracks (silent_tracks _) fun length => ?_
  refine bind_tracks (silent_tracks _) fun _ => bind_tracks (silent_tracks _) fun _ => ?_
  exact bind_tracks (root_course_tracks setup length) fun v => silent_tracks _

theorem decode_element_course_tracks (id : ElementId) (offset : Nat) :
    Tracks (decodeElementCourse setup id offset) (decodeElement setup id offset) := by
  refine bind_tracks (silent_tracks _) fun _ => bind_tracks (silent_tracks _) fun length => ?_
  exact bind_tracks (silent_tracks _) fun _ => element_course_tracks setup _ _ id

end

end ByteGrammar
