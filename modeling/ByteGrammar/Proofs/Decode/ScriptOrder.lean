import ByteGrammar.Proofs.Decode.Forms

/-!
# What scripts make of the dynamic byte order

Where the text of a script decides which order it sets, an element that is read leaves the order
that was set last by the scripts that were run for it, whether it becomes a value or is given up.
-/

set_option autoImplicit false

namespace ByteGrammar

open Stepwise DecodeM Source Course

variable {μ α : Type}

/-- The text of each script in the grammar decides whether it sets the dynamic byte order, and
which one, if it succeeds. Without a runtime no script sets any. -/
def Setup.SetBy (setup : Setup μ) (sets : String → Option ByteOrder) : Prop :=
  ∀ {id script}, setup.grammar.script? id = some script →
    match setup.runtime with
    | none => sets script.text = none
    | some runtime => ∀ view memory source order memory' source' order',
      (runtime.run script view memory).run setup.grammar source order =
        ((.ok (),memory'),source',order') → order' = (sets script.text).getD order

def lastOrder (start : ByteOrder) (set : List ByteOrder) : ByteOrder := set.getLast?.getD start

def Resolved.setBy (g : Resolved) (sets : String → Option ByteOrder) (id : ElementId) :
    Option ByteOrder := (g.script? id).bind fun script => sets script.text

def Act.setBy (sets : String → Option ByteOrder) : Act → Option ByteOrder
  | run script _ none => sets script.text
  | _ => none

def Kind.isScripted : Kind → Bool
  | .custom _ | .script _ | .scriptElement _ => true
  | _ => false

section
variable (o : ByteOrder)

@[simp] theorem last_order_nil : lastOrder o [] = o := rfl

@[simp] theorem last_order_append (first rest : List ByteOrder) :
    lastOrder o (first ++ rest) = lastOrder (lastOrder o first) rest := by
  unfold lastOrder
  rw [List.getLast?_append]
  cases rest.getLast? <;> rfl

@[simp] theorem last_order_option (set : Option ByteOrder) :
    lastOrder o set.toList = set.getD o := by
  cases set <;> rfl

end

def LeavesLast (sets : String → Option ByteOrder) (σ : State μ) (acts : List Act)
    (outcome : Option DecodeFault) (τ : State μ) : Prop :=
  Unbroken outcome → τ.order = lastOrder σ.order (acts.filterMap (Act.setBy sets))

section
variable {setup : Setup μ} {sets : String → Option ByteOrder}

theorem unscripted_set {g : Resolved} {id : ElementId} (h : (g.kind id).isScripted = false) :
    g.setBy sets id = none := by
  cases hk : g.kind id <;>
    simp [hk, Kind.isScripted, Resolved.setBy, Resolved.script?, Resolved.scriptHolder?] at h ⊢

section
variable {frame : Frame} {id : ElementId} {declared : Option Nat} {current : Option Value}
  {σ τ : State μ} {v : Value}

/-- A script that succeeds sets what its text says, as the only act. One that is not there, or
fails, ends the whole decode. -/
theorem script_form_set (hs : setup.SetBy sets) {acts : List Act}
    {r : Except DecodeFault Unit × State μ} (h : ScriptForm setup id current σ acts r) :
    (∃ fault, r.1 = .error fault ∧ fault.isFatal) ∨
      acts.filterMap (Act.setBy sets) = (setup.grammar.setBy sets id).toList ∧
        r.2.order = (setup.grammar.setBy sets id).getD σ.order := by
  unfold Resolved.setBy
  cases h with
  | absent none => exact .inl ⟨_,rfl,rfl⟩
  | failed run => exact .inl ⟨_,rfl,rfl⟩
  | @skipped script τ holds bare steady =>
    have hset := hs holds
    rw [bare] at hset
    rw [holds, Option.bind_some, hset]
    exact .inr ⟨rfl,steady.order⟩
  | @ran script runtime location memory source order holds installed run =>
    have hset := hs holds
    rw [installed] at hset
    rw [holds, Option.bind_some]
    refine .inr ⟨?_,hset _ _ _ _ _ _ _ run⟩
    simp only [List.filterMap_cons, List.filterMap_nil, Act.setBy]
    cases sets script.text <;> rfl

theorem run_script_set (hs : setup.SetBy sets) {u : Unit}
    (h : runScript setup id current σ = (.ok u,τ)) :
    τ.order = (setup.grammar.setBy sets id).getD σ.order := by
  have hform := run_script_form setup id current σ
  rw [h] at hform
  obtain ⟨_,hfault,-⟩ | ⟨-,horder⟩ := script_form_set hs hform
  · cases hfault
  · exact horder

theorem read_custom_set (hs : setup.SetBy sets)
    (hk : ∃ script, setup.grammar.kind id = .custom script)
    (h : readCustom setup frame id declared σ = (.ok v,τ)) :
    τ.order = (setup.grammar.setBy sets id).getD σ.order := by
  obtain ⟨script,hk⟩ := hk
  obtain ⟨n,_,hn,h1⟩ := bind_ok.mp h
  obtain ⟨-,rfl⟩ := required_length_ok hn
  obtain ⟨start,_,hc,h2⟩ := bind_ok.mp h1
  obtain ⟨rfl,-,-⟩ := claim_ok hc
  obtain ⟨_,_,hseek,h3⟩ := bind_ok.mp h2
  obtain rfl := seek_ok hseek
  split at h3
  · obtain ⟨_,u,hrun,h4⟩ := bind_ok.mp h3
    obtain ⟨_,_,hback,h5⟩ := bind_ok.mp h4
    obtain rfl := seek_ok hback
    obtain ⟨-,rfl⟩ := pure_ok.mp h5
    have horder := run_script_set hs hrun
    exact horder
  · next hnone =>
    obtain ⟨-,rfl⟩ := pure_ok.mp h3
    have htarget : (setup.grammar.attributesOf id).target = none := by simpa using hnone
    simp [Resolved.setBy, Resolved.script?, Resolved.scriptHolder?, hk, htarget, State.moved]

theorem read_script_set (hs : setup.SetBy sets) (h : readScript setup id σ = (.ok v,τ)) :
    τ.order = (setup.grammar.setBy sets id).getD σ.order := by
  obtain ⟨start,_,hc,h1⟩ := bind_ok.mp h
  obtain ⟨-,rfl⟩ := cursor_ok hc
  obtain ⟨_,u,hrun,h2⟩ := bind_ok.mp h1
  obtain ⟨_,_,hback,h3⟩ := bind_ok.mp h2
  obtain rfl := seek_ok hback
  obtain ⟨-,rfl⟩ := pure_ok.mp h3
  have horder := run_script_set hs hrun
  exact horder

end

theorem after_attempt_unbroken {arrangement : Arrangement} {frame : Frame} {s : Search}
    {member : ElementId} {least : Nat} {saved : List Value} {fault : DecodeFault} {ω τ : State μ}
    {result : Except DecodeFault Search.Stage} (hun : Unbroken (faultOf result))
    (h : afterAttempt arrangement frame s member least saved (.error fault) ω = (result,τ)) :
    Unbroken (some fault) := by
  by_cases hfatal : fault.isFatal
  · rw [after_attempt_fatal hfatal] at h
    cases h
    exact hun
  · exact unbroken_some.mpr (Bool.eq_false_iff.mpr hfatal)

theorem stop_after_unbroken {least consumed : Nat} {children : Array Value} {saved : List Value}
    {fault : DecodeFault} {ω τ : State μ} {result : Except DecodeFault (Array Value × Nat)}
    (hun : Unbroken (faultOf result))
    (h : stopAfter least children consumed saved fault ω = (result,τ)) :
    Unbroken (some fault) := by
  by_cases hfatal : fault.isFatal
  · rw [stop_after_fatal hfatal] at h
    cases h
    exact hun
  · exact unbroken_some.mpr (Bool.eq_false_iff.mpr hfatal)

theorem leaves_last_ledger (hs : setup.SetBy sets) : Ledger setup (LeavesLast sets) where
  idle h _ _ := h.order
  append hbegun hfirst hrest hun := by
    rw [List.filterMap_append, last_order_append, ← hfirst hbegun]
    exact hrest hun
  take count σ _ := (take_keeps (R := State.Steady) count σ).order
  run id current := run_script_tallies fun h hun => by
    obtain ⟨fault,hfault,hfatal⟩ | ⟨hacts,horder⟩ := script_form_set hs h
    · rw [hfault, fault_of_error, unbroken_some, hfatal] at hun
      cases hun
    · rw [hacts, last_order_option]
      exact horder
  read _ _ _ _ := rfl
  barred _ _ _ := rfl
  count id v σ _ := by
    rw [record_value_run]
    split <;> rfl
  giveUp _ _ _ _ := rfl
  late h hsteady hun := hsteady.order.trans (h hun)

/-- An element leaves the order that was set last in its acts, unless it ends the decode. -/
theorem element_sets (hs : setup.SetBy sets) (room : Nat) (frames : List Frame) (id : ElementId) :
    Upholds (LeavesLast sets) (elementCourse setup room frames id) :=
  element_course_upholds (leaves_last_ledger hs) room frames id

end

end ByteGrammar
