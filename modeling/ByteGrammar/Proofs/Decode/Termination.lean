import Mathlib.Logic.Relation
import Mathlib.Tactic.Ring
import ByteGrammar.Proofs.Decode.Conformance
import ByteGrammar.Proofs.Decode.Forms
import ByteGrammar.Proofs.Resolved.Members

/-!
# Decodes come to an end

From an element a decode goes into the elements inside, from a step of a search to the next one and
from a round of the root to another. Each time there is room for one frame fewer, or else fewer
values may still be produced, or else fewer members are left to try. This goes down for every
search and every round by itself, whatever budget they are given, and bounds how many elements are
ever begun.
-/

set_option autoImplicit false

namespace ByteGrammar

open Stepwise DecodeM Source Course Relation

variable {μ α : Type}

inductive Point (μ : Type) where
  | root (length : Nat) (σ : State μ)
  | round (length least : Nat) (most : Option Nat) (read : Array Value × Nat) (σ : State μ)
  | element (room : Nat) (frames : List Frame) (id : ElementId) (σ : State μ)
  | search (room : Nat) (frames : List Frame) (frame : Frame) (id : ElementId) (s : Search)
    (σ : State μ)

def State.allowance (setup : Setup μ) (σ : State μ) : Nat := setup.options.maxValues - σ.values

def memberStep (setup : Setup μ) (room : Nat) (frames : List Frame) (frame : Frame)
    (id : ElementId) (s : Search) : DecodeM μ Search.Stage :=
  searchStep setup (readElement setup room (frame :: frames))
    (setup.grammar.attributesOf id).arrangement (setup.grammar.membersOf id).toArray frame
    (frame :: frames) s

section
variable (setup : Setup μ)

/-- Where a decode goes next: into what is read inside, or on to the next step or round. -/
inductive Leads : Point μ → Point μ → Prop
  | begins {length least : Nat} {most : Option Nat} {σ ρ υ : State μ}
      (hleast : leastCount setup [⟨Grammar.root,0,length⟩] setup.grammar.start σ = (.ok least,ρ))
      (hmost : mostCount setup [⟨Grammar.root,0,length⟩] setup.grammar.start ρ = (.ok most,υ)) :
      Leads (.root length σ) (.round length least most (#[],0) υ)
  | enters {length least : Nat} {most : Option Nat} {read : Array Value × Nat} {σ : State μ}
      (inside : read.2 < length) :
      Leads (.round length least most read σ)
        (.element (setup.options.maxDepth - 1) [⟨Grammar.root,0,length⟩] setup.grammar.start
          (σ.moved read.2))
  | again {length least : Nat} {most : Option Nat} {read read' : Array Value × Nat}
      {σ τ : State μ}
      (turn : rootRound (readInRoot setup length setup.grammar.start) least most length read σ =
        (.ok (.on read'),τ)) :
      Leads (.round length least most read σ) (.round length least most read' τ)
  | refers {room : Nat} {frames : List Frame} {frame : Frame} {id target : ElementId}
      {link : Option Designator} {declared : Option Nat} {σ ρ : State μ}
      (opens : opening setup frames id σ = (.ok (frame,declared),ρ))
      (kind : setup.grammar.kind id = .structRef link)
      (linked : (setup.grammar.attributesOf id).target = some target) :
      Leads (.element (room + 1) frames id σ) (.element room (frame :: frames) target ρ)
  | searches {room : Nat} {frames : List Frame} {frame : Frame} {id : ElementId}
      {settings : StructSettings} {declared : Option Nat} {σ ρ : State μ}
      (opens : opening setup frames id σ = (.ok (frame,declared),ρ))
      (kind : setup.grammar.kind id = .struct settings) :
      Leads (.element (room + 1) frames id σ)
        (.search room frames frame id (Search.start (setup.grammar.membersOf id)) ρ)
  | tries {room least : Nat} {frames : List Frame} {frame : Frame} {id member : ElementId}
      {s : Search} {σ υ : State μ}
      (approach : Approach setup (setup.grammar.membersOf id).toArray frame (frame :: frames) s σ
        member least υ) :
      Leads (.search room frames frame id s σ) (.element room (frame :: frames) member υ)
  | goes {room : Nat} {frames : List Frame} {frame : Frame} {id : ElementId} {s s' : Search}
      {σ τ : State μ}
      (step : memberStep setup room frames frame id s σ = (.ok (.searching s'),τ)) :
      Leads (.search room frames frame id s σ) (.search room frames frame id s' τ)

/-- How many more frames may be opened, how many more values may be produced and how many members
are left to try. -/
def Point.measure : Point μ → Nat × Nat × Nat
  | root _ σ => (setup.options.maxDepth - 1,σ.allowance setup,2)
  | round _ _ _ _ σ => (setup.options.maxDepth - 1,σ.allowance setup,1)
  | element room _ _ σ => (room,σ.allowance setup,0)
  | search room _ _ id s σ =>
    (room,σ.allowance setup,(setup.grammar.membersOf id).length - s.index)

def Point.Level : Point μ → Prop
  | element room frames _ _ => room = setup.options.maxDepth - frames.length
  | search room frames _ _ _ _ => room = setup.options.maxDepth - (frames.length + 1)
  | _ => True

end

def Lower : Nat × Nat × Nat → Nat × Nat × Nat → Prop :=
  Prod.Lex (· < ·) (Prod.Lex (· < ·) (· < ·))

theorem lower_wf : WellFounded Lower :=
  (Prod.lex Nat.lt_wfRel (Prod.lex Nat.lt_wfRel Nat.lt_wfRel)).wf

theorem lower_room {room room' a a' m m' : Nat} (h : room < room') :
    Lower (room,a,m) (room',a',m') := .left _ _ h

theorem lower_members {room a a' m m' : Nat} (ha : a ≤ a') (hm : m < m') :
    Lower (room,a,m) (room,a',m') := by
  refine .right _ ?_
  rcases Nat.lt_or_eq_of_le ha with hlt | rfl
  · exact .left _ _ hlt
  · exact .right _ hm

theorem lower_values {room a a' m m' : Nat} (h : a < a') : Lower (room,a,m) (room,a',m') :=
  .right _ (.left _ _ h)

section
variable {setup : Setup μ}

theorem allowance_congr {σ τ : State μ} (h : τ.values = σ.values) :
    τ.allowance setup = σ.allowance setup := congrArg (setup.options.maxValues - ·) h

theorem allowance_le {σ τ : State μ} (h : σ.values ≤ τ.values) :
    τ.allowance setup ≤ σ.allowance setup := Nat.sub_le_sub_left h _

theorem allowance_read {room : Nat} {frames : List Frame} {id : ElementId} {σ τ : State μ}
    {v : Value} (h : readElement setup room frames id σ = (.ok v,τ)) :
    τ.allowance setup < σ.allowance setup := by
  obtain ⟨hmore,hle⟩ := read_element_counted h
  unfold State.allowance
  omega

/-- Wherever a decode goes, the measure goes down. -/
theorem leads_lower {p q : Point μ} (h : Leads setup p q) :
    Lower (q.measure setup) (p.measure setup) := by
  cases h with
  | begins hleast hmost =>
    have hvalues := (((bound_quiet _ _ _ _ _).of_run hleast).trans
      ((bound_quiet _ _ _ _ _).of_run hmost)).values
    exact lower_members (allowance_le (Nat.le_of_eq hvalues.symm)) (Nat.lt_succ_self 1)
  | enters inside => exact lower_members (Nat.le_refl _) Nat.one_pos
  | again turn =>
    obtain ⟨-,v,hread,-,-⟩ := root_round_on turn
    have hless : _ < _ := allowance_read hread
    exact lower_values hless
  | refers opens kind linked => exact lower_room (Nat.lt_succ_self _)
  | searches opens kind => exact lower_room (Nat.lt_succ_self _)
  | tries approach =>
    refine lower_members (allowance_le (Nat.le_of_eq approach.steady.values.symm)) ?_
    have hindex := approach.index
    rw [List.size_toArray] at hindex
    omega
  | goes step =>
    cases search_step_cases (read_element_reader setup _ _) step with
    | passed hmember resumed =>
      have hindex := (Array.getElem?_eq_some_iff.mp hmember).1
      rw [List.size_toArray] at hindex
      refine lower_members (allowance_le resumed.values) ?_
      simp only [Search.next]
      omega
    | child hmember hmost open_ hleast hread =>
      have hquiet : _ = _ := (child_quiet hmost hleast).values
      have hless := allowance_read hread
      unfold State.allowance at hless
      rw [hquiet] at hless
      exact lower_values hless

theorem leads_wf : WellFounded fun q p : Point μ => Leads setup p q :=
  Subrelation.wf (fun h => leads_lower h) (InvImage.wf (Point.measure setup) lower_wf)

theorem leads_level {p q : Point μ} (h : Leads setup p q) (hp : p.Level setup) :
    q.Level setup := by
  cases h with
  | begins | again => trivial
  | enters inside => rfl
  | refers | searches =>
    simp only [Point.Level, List.length_cons] at hp ⊢
    omega
  | tries | goes => exact hp

theorem reached_level {p q : Point μ} (h : ReflTransGen (Leads setup) p q)
    (hp : p.Level setup) : q.Level setup := by
  induction h with
  | refl => exact hp
  | tail _ step ih => exact leads_level step ih

end

def reads (acts : List Act) : Nat := acts.countP Act.isRead

def Reached (setup : Setup μ) (p : Point μ) (acts : List Act) : Prop :=
  ∀ room id, Act.read room id ∈ acts →
    ∃ frames υ, ReflTransGen (Leads setup) p (.element room frames id υ)

theorem reads_begun (room : Nat) (id : ElementId) (acts : List Act) :
    reads (.read room id :: acts) = reads acts + 1 := List.countP_cons_of_pos rfl

theorem reads_append (first rest : List Act) : reads (first ++ rest) = reads first + reads rest :=
  List.countP_append

theorem reads_plain {acts : List Act} (h : ∀ act ∈ acts, act.isRead = false) : reads acts = 0 :=
  List.countP_eq_zero.mpr fun act hact => by simp [h act hact]

theorem on_success_plain {act : Act} (h : act.isRead = false) (result : Except DecodeFault α) :
    ∀ other ∈ act.onSuccess result, other.isRead = false := by
  cases result with
  | ok a => exact List.forall_mem_singleton.mpr h
  | error fault => exact List.forall_mem_nil _

section
variable {setup : Setup μ} {p q : Point μ} {first rest acts : List Act}

theorem reached_plain (h : ∀ act ∈ acts, act.isRead = false) : Reached setup p acts := by
  intro room id hread
  cases h _ hread

theorem reached_append (h : Reached setup p first) (k : Reached setup p rest) :
    Reached setup p (first ++ rest) := fun room id hread =>
  (List.mem_append.mp hread).elim (h room id) (k room id)

theorem Reached.behind (h : Reached setup q acts) (step : Leads setup p q) :
    Reached setup p acts := by
  intro room id hread
  obtain ⟨frames,υ,hreach⟩ := h room id hread
  exact ⟨frames,υ,.head step hreach⟩

theorem reached_element {room : Nat} {frames : List Frame} {id : ElementId} {σ : State μ}
    (h : Reached setup (.element room frames id σ) acts) :
    Reached setup (.element room frames id σ) (.read room id :: acts) := by
  intro room' id' hread
  rcases List.mem_cons.mp hread with heq | hread
  · cases heq
    exact ⟨frames,σ,.refl⟩
  · exact h room' id' hread

end

section
variable {setup : Setup μ}

theorem search_reached {room : Nat} {frames : List Frame} {frame : Frame} {id : ElementId}
    (h : ∀ {id σ acts r}, elementCourse setup room (frame :: frames) id σ acts r →
      Reached setup (.element room (frame :: frames) id σ) acts)
    {s : Search} {σ : State μ} {acts : List Act}
    {r : Except DecodeFault (Search × Bool) × State μ}
    (hsearch : searchCourse setup (elementCourse setup room (frame :: frames))
      (setup.grammar.attributesOf id).arrangement (setup.grammar.membersOf id).toArray frame
      (frame :: frames) s σ acts r) :
    Reached setup (.search room frames frame id s σ) acts := by
  have hstep : ∀ {s σ acts r}, stepCourse setup (elementCourse setup room (frame :: frames))
      (setup.grammar.attributesOf id).arrangement (setup.grammar.membersOf id).toArray frame
      (frame :: frames) s σ acts r → Reached setup (.search room frames frame id s σ) acts := by
    intro s σ acts r hturn
    cases step_course_form hturn with
    | idle steady same leads => exact reached_plain (List.forall_mem_nil _)
    | taken approach read => exact (h read).behind (.tries approach)
    | refused approach read after =>
      exact reached_append ((h read).behind (.tries approach))
        (reached_plain (on_success_plain rfl _))
  induction hsearch with
  | ended last leads => exact hstep last
  | failed last => exact hstep last
  | @on s s' σ υ acts more stage r first leads rest ih =>
    cases stage with
    | ended last dry => cases leads
    | searching next =>
      cases leads
      have hrun := (step_course_tracks (fun id => element_course_tracks setup room (frame :: frames)
        id) _ _ _ _ s σ).sound first
      exact reached_append (hstep first) (ih.behind (.goes hrun.symm))

/-- An element goes to whatever is begun inside. -/
theorem element_reached {room : Nat} {frames : List Frame} {id : ElementId} {σ : State μ}
    {acts : List Act} {r : Except DecodeFault Value × State μ}
    (h : elementCourse setup room frames id σ acts r) :
    Reached setup (.element room frames id σ) acts := by
  induction room generalizing frames id σ acts r with
  | zero =>
    obtain ⟨rest,⟨rfl,-⟩,rfl⟩ := tell_bind.mp h
    exact reached_element (reached_plain (List.forall_mem_nil _))
  | succ room ih =>
    obtain ⟨rest,hrest,rfl⟩ := tell_bind.mp h
    refine reached_element ?_
    have hkind : ∀ {frame declared ρ acts r}, opening setup frames id σ = (.ok (frame,declared),ρ) →
        kindCourse setup (elementCourse setup room (frame :: frames)) frame (frame :: frames) id
          declared ρ acts r → Reached setup (.element (room + 1) frames id σ) acts := by
      intro frame declared ρ acts r opens hread
      cases kind_course_form hread with
      | barred fault => exact reached_plain (List.forall_mem_nil _)
      | leaf simple plain run kept => exact reached_plain plain
      | reference kind linked read => exact (ih read).behind (.refers opens kind linked)
      | unfound kind search => exact (search_reached ih search).behind (.searches opens kind)
      | found kind search finish => exact (search_reached ih search).behind (.searches opens kind)
    cases with_course_form hrest with
    | shut steady => exact reached_plain (List.forall_mem_nil _)
    | dropped opens read same steady => exact hkind opens read
    | counted opens read order values outcome =>
      exact reached_append (hkind opens read)
        (reached_plain (List.forall_mem_singleton.mpr rfl))

end

def Affords (setup : Setup μ) (cost : Nat) (σ : State μ) (acts : List Act) (τ : State μ) : Prop :=
  σ.values ≤ τ.values ∧
    reads acts + cost * τ.allowance setup ≤ cost * (σ.allowance setup + 1)

section
variable {setup : Setup μ} {cost width : Nat}

theorem affords_plain {σ τ : State μ} {acts : List Act} (h : σ.values ≤ τ.values)
    (plain : ∀ act ∈ acts, act.isRead = false) : Affords setup cost σ acts τ := by
  refine ⟨h,?_⟩
  rw [reads_plain plain, Nat.zero_add]
  exact Nat.mul_le_mul_left cost (Nat.le_succ_of_le (allowance_le h))

theorem pays_for_again (width : Nat) {cost n a b : Nat} (hn : n + cost * b ≤ cost * (a + 1))
    (h : b < a) :
    n + cost * ((width + 2) * b + width) ≤ cost * ((width + 2) * a) := by
  obtain ⟨d,rfl⟩ := Nat.exists_eq_add_of_lt h
  have hspent : n ≤ cost * (d + 2) := by
    have hsplit : cost * (b + d + 1 + 1) = cost * b + cost * (d + 2) := by ring
    omega
  have hprice : cost * (d + 2) + cost * ((width + 2) * b + width) ≤
      cost * ((width + 2) * (b + d + 1)) := by
    rw [← Nat.mul_add]
    refine Nat.mul_le_mul_left cost ?_
    have hexpand : (width + 2) * (b + d + 1) = (width + 2) * b + width * d + 2 * d + width + 2 := by
      ring
    omega
  omega

theorem pays_for_next {cost width n a b i : Nat} (hn : n + cost * b ≤ cost * (a + 1))
    (h : b ≤ a) (hi : i < width) :
    n + cost * ((width + 2) * b + (width - (i + 1))) ≤
      cost * ((width + 2) * a + (width - i)) := by
  obtain ⟨d,rfl⟩ := Nat.exists_eq_add_of_le h
  obtain ⟨left,rfl⟩ := Nat.exists_eq_add_of_lt hi
  have hspent : n ≤ cost * (d + 1) := by
    have hsplit : cost * (b + d + 1) = cost * b + cost * (d + 1) := by ring
    omega
  have hprice : cost * (d + 1) + cost * ((i + left + 1 + 2) * b + left) ≤
      cost * ((i + left + 1 + 2) * (b + d) + (left + 1)) := by
    rw [← Nat.mul_add]
    refine Nat.mul_le_mul_left cost ?_
    have hexpand : (i + left + 1 + 2) * (b + d) =
        (i + left + 1 + 2) * b + (i + left + 2) * d + d := by
      ring
    omega
  have hleft : i + left + 1 - i = left + 1 := by omega
  have hnext : i + left + 1 - (i + 1) = left := by omega
  rw [hleft, hnext]
  omega

theorem pays_for_one {cost width n a b : Nat} (hcost : 0 < cost)
    (hn : n + cost * ((width + 2) * b) ≤ cost * ((width + 2) * a + width)) :
    n + 1 + (width + 2) * cost * b ≤ (width + 2) * cost * (a + 1) := by
  have hleft : (width + 2) * cost * b = cost * ((width + 2) * b) := by ring
  have hright : (width + 2) * cost * (a + 1) =
      cost * ((width + 2) * a + width) + cost + cost := by
    ring
  omega

theorem pays_for_target {cost width n a b : Nat} (hcost : 0 < cost)
    (hn : n + cost * b ≤ cost * (a + 1)) (h : b ≤ a) :
    n + 1 + (width + 2) * cost * b ≤ (width + 2) * cost * (a + 1) := by
  have hmore : (width + 1) * cost * b ≤ (width + 1) * cost * a := Nat.mul_le_mul_left _ h
  have hleft : (width + 2) * cost * b = cost * b + (width + 1) * cost * b := by ring
  have hright : (width + 2) * cost * (a + 1) =
      cost * (a + 1) + (width + 1) * cost * a + width * cost + cost := by
    ring
  omega

theorem pays_for_round {cost n a b : Nat} (hn : n + cost * b ≤ cost * (a + 1)) (h : b < a) :
    n + cost * (2 * b + 1) ≤ cost * (2 * a + 1) := by
  obtain ⟨d,rfl⟩ := Nat.exists_eq_add_of_lt h
  have hleft : cost * (2 * b + 1) = cost * b + cost * (b + 1) := by ring
  have hright : cost * (2 * (b + d + 1) + 1) =
      cost * (b + d + 1 + 1) + cost * (b + 1) + cost * d := by
    ring
  omega

theorem pays_for_last {cost n a b : Nat} (hn : n + cost * b ≤ cost * (a + 1)) (h : b ≤ a) :
    n + cost * (2 * b) ≤ cost * (2 * a + 1) := by
  have hmore : cost * b ≤ cost * a := Nat.mul_le_mul_left _ h
  have hleft : cost * (2 * b) = cost * b + cost * b := by ring
  have hright : cost * (2 * a + 1) = cost * (a + 1) + cost * a := by ring
  omega

def leftAfter (width : Nat) : Except DecodeFault Search.Stage → Nat
  | .ok (.searching s) => width - s.index
  | _ => 0

theorem left_after_le (width : Nat) (result : Except DecodeFault Search.Stage) :
    leftAfter width result ≤ width := by
  unfold leftAfter
  split
  · exact Nat.sub_le _ _
  · exact Nat.zero_le _

section
variable {course : ElementId → Course μ Value} {arrangement : Arrangement}
  {members : Array ElementId} {frame : Frame} {frames : List Frame}
  (hafford : ∀ {id σ acts r}, course id σ acts r → Affords setup cost σ acts r.2)
  (hread : ∀ {id σ acts v τ}, course id σ acts (.ok v,τ) →
    τ.allowance setup < σ.allowance setup)
  (hwidth : members.size ≤ width)

include hafford hread hwidth

theorem step_affords {s : Search} {σ : State μ} {acts : List Act}
    {r : Except DecodeFault Search.Stage × State μ}
    (h : stepCourse setup course arrangement members frame frames s σ acts r) :
    σ.values ≤ r.2.values ∧
      reads acts + cost * ((width + 2) * r.2.allowance setup + leftAfter width r.1) ≤
        cost * ((width + 2) * σ.allowance setup + (width - s.index)) := by
  cases step_course_form h with
  | @idle result τ steady same leads =>
    have hsame : τ.allowance setup = σ.allowance setup :=
      allowance_congr steady.values
    have hleft : leftAfter width result ≤ width - s.index := by
      unfold leftAfter
      split
      · next s' =>
        obtain ⟨rfl,-⟩ := leads s' rfl
        simp only [Search.next]
        omega
      · exact Nat.zero_le _
    refine ⟨Nat.le_of_eq steady.values.symm,?_⟩
    rw [reads_plain (List.forall_mem_nil _), Nat.zero_add, hsame]
    exact Nat.mul_le_mul_left cost (Nat.add_le_add_left hleft _)
  | @taken member least υ τ acts v approach read =>
    have hsame : υ.allowance setup = σ.allowance setup :=
      allowance_congr approach.steady.values
    obtain ⟨hvalues,hacts⟩ := hafford read
    have hless := hread read
    rw [hsame] at hacts hless
    rw [approach.steady.values] at hvalues
    refine ⟨hvalues,?_⟩
    -- The value just counted pays for going through all members again.
    have hpaid := pays_for_again width hacts hless
    have hleft := left_after_le width (.ok (.searching (s.accept arrangement least v)))
    exact Nat.le_trans (Nat.add_le_add_left (Nat.mul_le_mul_left cost
      (Nat.add_le_add_left hleft _)) _)
      (Nat.le_trans hpaid (Nat.mul_le_mul_left cost (Nat.le_add_right _ _)))
  | @refused member least υ ω τ acts fault result approach read after =>
    have hsame : υ.allowance setup = σ.allowance setup :=
      allowance_congr approach.steady.values
    have hafter : State.Steady ω τ := (after_attempt_holds _ _ _ _ _ _ _).of_run after
    have hsame' : τ.allowance setup = ω.allowance setup := allowance_congr hafter.values
    obtain ⟨hvalues,hacts⟩ := hafford read
    rw [hsame, ← hsame'] at hacts
    rw [approach.steady.values, ← hafter.values] at hvalues
    refine ⟨hvalues,?_⟩
    have hpaid := pays_for_next hacts (allowance_le hvalues)
      (Nat.lt_of_lt_of_le approach.index hwidth)
    have hleft : leftAfter width result ≤ width - (s.index + 1) := by
      rcases result with fault' | stage
      · exact Nat.zero_le _
      · rcases (after_attempt_ok after).1 with ⟨rfl,-⟩ | rfl
        · exact Nat.zero_le _
        · exact Nat.le_refl _
    rw [reads_append, reads_plain (on_success_plain rfl _), Nat.add_zero]
    exact Nat.le_trans (Nat.add_le_add_left (Nat.mul_le_mul_left cost
      (Nat.add_le_add_left hleft _)) _) hpaid

theorem search_affords {s : Search} {σ : State μ} {acts : List Act}
    {r : Except DecodeFault (Search × Bool) × State μ}
    (h : searchCourse setup course arrangement members frame frames s σ acts r) :
    σ.values ≤ r.2.values ∧
      reads acts + cost * ((width + 2) * r.2.allowance setup) ≤
        cost * ((width + 2) * σ.allowance setup + (width - s.index)) := by
  induction h with
  | @ended s σ τ acts stage found last leads =>
    obtain ⟨hvalues,hstep⟩ := step_affords hafford hread hwidth last
    exact ⟨hvalues,Nat.le_trans (Nat.add_le_add_left (Nat.mul_le_mul_left cost
      (Nat.le_add_right _ _)) _) hstep⟩
  | failed last => exact step_affords hafford hread hwidth last
  | @on s s' σ υ acts more stage r first leads rest ih =>
    obtain ⟨hvalues,hstep⟩ := step_affords hafford hread hwidth first
    cases stage with
    | ended last dry => cases leads
    | searching next =>
      cases leads
      simp only [leftAfter] at hstep
      rw [reads_append]
      exact ⟨Nat.le_trans hvalues ih.1,by omega⟩

end

end

section
variable {setup : Setup μ} {width : Nat}
  (hwidth : ∀ id, (setup.grammar.membersOf id).length ≤ width)

include hwidth

theorem kind_affords {room : Nat} {frame : Frame} {frames : List Frame}
    (ih : ∀ {id σ acts r}, elementCourse setup room frames id σ acts r →
      Affords setup ((width + 2) ^ room) σ acts r.2)
    {id : ElementId} {declared : Option Nat} {ρ : State μ} {acts : List Act}
    {r : Except DecodeFault Value × State μ}
    (h : kindCourse setup (elementCourse setup room frames) frame frames id declared ρ acts r) :
    ρ.values ≤ r.2.values ∧
      reads acts + 1 + (width + 2) ^ (room + 1) * r.2.allowance setup ≤
        (width + 2) ^ (room + 1) * (ρ.allowance setup + 1) := by
  have hcost : 0 < (width + 2) ^ room := Nat.pow_pos (Nat.succ_pos _)
  rw [Nat.pow_succ, Nat.mul_comm ((width + 2) ^ room)]
  have hnone : ∀ {acts : List Act} {τ : State μ}, (∀ act ∈ acts, act.isRead = false) →
      ρ.values ≤ τ.values →
      ρ.values ≤ τ.values ∧
        reads acts + 1 + (width + 2) * (width + 2) ^ room * τ.allowance setup ≤
          (width + 2) * (width + 2) ^ room * (ρ.allowance setup + 1) := by
    intro acts τ plain hvalues
    have hpaid : Affords setup ((width + 2) ^ room) ρ acts τ := affords_plain hvalues plain
    exact ⟨hvalues,pays_for_target hcost hpaid.2 (allowance_le hvalues)⟩
  have hsearch : ∀ {acts r}, searchCourse setup (elementCourse setup room frames)
      (setup.grammar.attributesOf id).arrangement (setup.grammar.membersOf id).toArray frame
      frames (Search.start (setup.grammar.membersOf id)) ρ acts r →
      ρ.values ≤ r.2.values ∧
        reads acts + 1 + (width + 2) * (width + 2) ^ room * r.2.allowance setup ≤
          (width + 2) * (width + 2) ^ room * (ρ.allowance setup + 1) := by
    intro acts r hrun
    have hmembers : (setup.grammar.membersOf id).toArray.size ≤ width := hwidth id
    obtain ⟨hvalues,hpaid⟩ := search_affords ih
      (fun h => allowance_read ((element_course_tracks setup room frames _ _).sound h).symm)
      hmembers hrun
    exact ⟨hvalues,pays_for_one hcost hpaid⟩
  cases kind_course_form h with
  | barred fault => exact hnone (List.forall_mem_nil _) (Nat.le_refl _)
  | leaf simple plain run kept => exact hnone plain (Nat.le_of_eq kept.values.symm)
  | reference kind linked read =>
    obtain ⟨hvalues,hpaid⟩ := ih read
    exact ⟨hvalues,pays_for_target hcost hpaid (allowance_le hvalues)⟩
  | unfound kind search => exact hsearch search
  | @found settings acts found υ τ result kind search finish =>
    have hafter := ((finish_struct_steady _ _ _ _ _ _).of_run finish).values
    have hsame : τ.allowance setup = υ.allowance setup := allowance_congr hafter
    obtain ⟨hvalues,hpaid⟩ := hsearch search
    dsimp only
    rw [hafter, hsame]
    exact ⟨hvalues,hpaid⟩

/-- What is begun for an element is afforded by the values that it counts. -/
theorem element_affords {room : Nat} {frames : List Frame} {id : ElementId} {σ : State μ}
    {acts : List Act} {r : Except DecodeFault Value × State μ}
    (h : elementCourse setup room frames id σ acts r) :
    Affords setup ((width + 2) ^ room) σ acts r.2 := by
  induction room generalizing frames id σ acts r with
  | zero =>
    obtain ⟨rest,⟨rfl,rfl⟩,rfl⟩ := tell_bind.mp h
    refine ⟨Nat.le_refl _,?_⟩
    rw [reads_begun, reads_plain (List.forall_mem_nil _), Nat.pow_zero]
    show 0 + 1 + 1 * σ.allowance setup ≤ 1 * (σ.allowance setup + 1)
    omega
  | succ room ih =>
    obtain ⟨rest,hrest,rfl⟩ := tell_bind.mp h
    rw [Affords, reads_begun]
    cases with_course_form hrest with
    | @shut fault τ steady =>
      have hone : 0 < (width + 2) ^ (room + 1) := Nat.pow_pos (Nat.succ_pos _)
      have hsame : τ.allowance setup = σ.allowance setup :=
        allowance_congr steady.values
      rw [reads_plain (List.forall_mem_nil _), hsame, Nat.mul_succ]
      exact ⟨Nat.le_of_eq steady.values.symm,by omega⟩
    | @dropped frame declared ρ υ τ acts result fault opens read same steady =>
      obtain ⟨hvalues,hpaid⟩ := kind_affords hwidth ih read
      have hopen := ((opening_quiet _ _ _).of_run opens).values
      have hbefore : ρ.allowance setup = σ.allowance setup := allowance_congr hopen
      have hafter : τ.allowance setup = υ.allowance setup :=
        allowance_congr steady.values
      dsimp only at hvalues hpaid ⊢
      rw [hafter, ← hbefore, steady.values, ← hopen]
      exact ⟨hvalues,hpaid⟩
    | @counted frame declared ρ υ τ acts v result opens read order values outcome =>
      obtain ⟨hvalues,hpaid⟩ := kind_affords hwidth ih read
      have hopen := ((opening_quiet _ _ _).of_run opens).values
      have hbefore : ρ.allowance setup = σ.allowance setup := allowance_congr hopen
      have hcounted : υ.values ≤ τ.values := by omega
      have hless : τ.allowance setup ≤ υ.allowance setup := allowance_le hcounted
      have hmul := Nat.mul_le_mul_left ((width + 2) ^ (room + 1)) hless
      dsimp only at hvalues hpaid ⊢
      rw [reads_append, reads_plain (List.forall_mem_singleton.mpr rfl), Nat.add_zero, ← hbefore]
      exact ⟨by omega,by omega⟩

end

section
variable {setup : Setup μ}

theorem rounds_reached {length least : Nat} {most : Option Nat} {read : Array Value × Nat}
    {σ : State μ} {acts : List Act} {r : Except DecodeFault (Array Value × Nat) × State μ}
    (h : roundsCourse setup length least most read σ acts r) :
    Reached setup (.round length least most read σ) acts := by
  have hround : ∀ {read σ acts r}, roundCourse (inRootCourse setup length setup.grammar.start)
      setup.grammar.start least most length read σ acts r →
      Reached setup (.round length least most read σ) acts := by
    intro read σ acts r hturn
    cases round_course_form hturn with
    | full => exact reached_plain (List.forall_mem_nil _)
    | taken inside attempt => exact (element_reached attempt).behind (.enters inside)
    | refused inside attempt after =>
      exact reached_append ((element_reached attempt).behind (.enters inside))
        (reached_plain (on_success_plain rfl _))
  induction h with
  | ended last leads => exact hround last
  | failed last => exact hround last
  | @on read read' σ υ acts more turn r first leads rest ih =>
    subst leads
    have hrun := (round_course_tracks (element_course_tracks setup _ _ _) setup.grammar.start
      least most length read σ).sound first
    exact reached_append (hround first) (ih.behind (.again hrun.symm))

theorem root_reached {length : Nat} {σ : State μ} {acts : List Act}
    {r : Except DecodeFault Value × State μ} (h : rootCourse setup length σ acts r) :
    Reached setup (.root length σ) acts := by
  cases root_course_form h with
  | barred steady => exact reached_plain (List.forall_mem_nil _)
  | stopped hleast hmost rounds => exact (rounds_reached rounds).behind (.begins hleast hmost)
  | finished hleast hmost rounds finish =>
    exact (rounds_reached rounds).behind (.begins hleast hmost)

theorem rounds_afford {width : Nat}
    (hwidth : ∀ id, (setup.grammar.membersOf id).length ≤ width) {length least : Nat}
    {most : Option Nat} {read : Array Value × Nat} {σ : State μ} {acts : List Act}
    {r : Except DecodeFault (Array Value × Nat) × State μ}
    (h : roundsCourse setup length least most read σ acts r) :
    reads acts + (width + 2) ^ (setup.options.maxDepth - 1) * (2 * r.2.allowance setup) ≤
      (width + 2) ^ (setup.options.maxDepth - 1) * (2 * σ.allowance setup + 1) := by
  have hround : ∀ {read σ acts r}, roundCourse (inRootCourse setup length setup.grammar.start)
      setup.grammar.start least most length read σ acts r →
      Affords setup ((width + 2) ^ (setup.options.maxDepth - 1)) σ acts r.2 ∧
        ∀ read', r.1 = .ok (.on read') → r.2.allowance setup < σ.allowance setup := by
    intro read σ acts r hturn
    cases round_course_form hturn with
    | full => exact ⟨affords_plain (Nat.le_refl _) (List.forall_mem_nil _),nofun⟩
    | taken inside attempt =>
      have hread := ((element_course_tracks setup _ _ _ _).sound attempt).symm
      have hless : _ < _ := allowance_read hread
      exact ⟨element_affords hwidth attempt,fun _ _ => hless⟩
    | @refused acts fault ω τ result inside attempt after =>
      obtain ⟨hvalues,hpaid⟩ := element_affords hwidth attempt
      have hafter : State.Uncounted ω τ := (stop_after_holds _ _ _ _ _).of_run after
      have hsame : τ.allowance setup = ω.allowance setup := allowance_congr hafter
      refine ⟨⟨Nat.le_trans hvalues (Nat.le_of_eq hafter.symm),?_⟩,fun read' hon => ?_⟩
      · rw [reads_append, reads_plain (on_success_plain rfl _), Nat.add_zero]
        dsimp only
        rw [hsame]
        exact hpaid
      · cases result <;> cases hon
  induction h with
  | ended last leads =>
    obtain ⟨⟨hvalues,hpaid⟩,-⟩ := hround last
    exact pays_for_last hpaid (allowance_le hvalues)
  | failed last =>
    obtain ⟨⟨hvalues,hpaid⟩,-⟩ := hround last
    exact pays_for_last hpaid (allowance_le hvalues)
  | @on read read' σ υ acts more turn r first leads rest ih =>
    subst leads
    obtain ⟨⟨hvalues,hpaid⟩,hless⟩ := hround first
    have hturn := pays_for_round hpaid (hless read' rfl)
    rw [reads_append]
    dsimp only at hturn
    omega

def Setup.mostReads (setup : Setup μ) (size : Nat) : Nat :=
  (size + 2) ^ (setup.options.maxDepth - 1) * (2 * setup.options.maxValues + 1)

/-- The acts of a decode that began at a point come to an end: it goes from there to each of the
elements that it begins, with the room that the open frames leave, and begins no more than
`most`. -/
structure Ends (setup : Setup μ) (p : Point μ) (most : Nat) (acts : List Act) : Prop where
  reached : ∀ room id, Act.read room id ∈ acts → ∃ frames υ,
    ReflTransGen (Leads setup) p (.element room frames id υ) ∧
      room = setup.options.maxDepth - frames.length
  few : reads acts ≤ most

theorem Reached.ends {p : Point μ} {most : Nat} {acts : List Act} (h : Reached setup p acts)
    (hp : p.Level setup) (few : reads acts ≤ most) : Ends setup p most acts := by
  refine ⟨fun room id hread => ?_,few⟩
  obtain ⟨frames,υ,hreach⟩ := h room id hread
  exact ⟨frames,υ,hreach,reached_level hreach hp⟩

theorem root_ends {size : Nat} (hsize : ∀ id, (setup.grammar.membersOf id).length ≤ size)
    {length : Nat} {σ : State μ} {acts : List Act} {r : Except DecodeFault Value × State μ}
    (h : rootCourse setup length σ acts r) :
    Ends setup (.root length σ) (setup.mostReads size) acts := by
  refine (root_reached h).ends trivial ?_
  have hrounds : ∀ {least most υ read'}, roundsCourse setup length least most (#[],0) υ acts read' →
      reads acts ≤ setup.mostReads size := by
    intro least most υ read' hrun
    have hpaid := rounds_afford hsize hrun
    have hless : υ.allowance setup ≤ setup.options.maxValues := Nat.sub_le _ _
    exact Nat.le_trans (Nat.le_of_add_right_le hpaid)
      (Nat.mul_le_mul_left _ (Nat.succ_le_succ (Nat.mul_le_mul_left 2 hless)))
  cases root_course_form h with
  | barred steady => exact Nat.zero_le _
  | stopped hleast hmost rounds => exact hrounds rounds
  | finished hleast hmost rounds finish => exact hrounds rounds

theorem in_root_ends {size : Nat} (hsize : ∀ id, (setup.grammar.membersOf id).length ≤ size)
    {length : Nat} {id : ElementId} {σ : State μ} {acts : List Act}
    {r : Except DecodeFault Value × State μ} (h : inRootCourse setup length id σ acts r) :
    Ends setup (.element (setup.options.maxDepth - 1) [⟨Grammar.root,0,length⟩] id σ)
      (setup.mostReads size) acts := by
  refine (element_reached h).ends rfl ?_
  have hpaid := (element_affords hsize h).2
  have hless : σ.allowance setup ≤ setup.options.maxValues := Nat.sub_le _ _
  refine Nat.le_trans (Nat.le_of_add_right_le hpaid) (Nat.mul_le_mul_left _ ?_)
  omega

end

/-- Every decode comes to an end. Wherever a decode goes, into an element, on in a search or on in
the root, the measure of what is left goes down: the frames that may still be opened, the values
that may still be produced, the members that are left to try. This order is well-founded. A decode
has a course in which searches and rounds go on for as long as they do, every course comes to the
outcome of the decode, and it goes to each element that it begins and begins no more of them than
the limits and the number of elements in the grammar allow. -/
theorem decode_terminates {authored : Grammar} {setup : Setup μ} (hf : authored.Forest)
    (hg : authored.resolve = .ok setup.grammar) (σ : State μ) :
    (∀ {p q : Point μ}, Leads setup p q → Lower (q.measure setup) (p.measure setup)) ∧
    (WellFounded fun q p : Point μ => Leads setup p q) ∧
    ((∃ acts, decodeCourse setup σ acts (decode setup σ)) ∧
      ∀ acts r, decodeCourse setup σ acts r → r = decode setup σ ∧
        Ends setup (.root σ.source.length
          ((σ.begun setup 0).noted (.decoding σ.source.length)))
          (setup.mostReads authored.size) acts) ∧
    ∀ id offset,
      (∃ acts, decodeElementCourse setup id offset σ acts (decodeElement setup id offset σ)) ∧
      ∀ acts r, decodeElementCourse setup id offset σ acts r →
        r = decodeElement setup id offset σ ∧
          Ends setup (.element (setup.options.maxDepth - 1) [⟨Grammar.root,0,σ.source.length⟩] id
            (σ.begun setup offset)) (setup.mostReads authored.size) acts := by
  have hsize := Grammar.members_length_le hf hg
  refine ⟨leads_lower,leads_wf,⟨(decode_course_tracks setup σ).goes,fun acts r h => ?_⟩,
    fun id offset => ⟨(decode_element_course_tracks setup id offset σ).goes,fun acts r h => ?_⟩⟩
  · obtain ⟨result,hroot,-⟩ := decode_course_form h
    exact ⟨(decode_course_tracks setup σ).sound h,root_ends hsize hroot⟩
  · exact ⟨(decode_element_course_tracks setup id offset σ).sound h,
      in_root_ends hsize (decode_element_course_form h)⟩

theorem records_terminate :
    ∃ acts, decodeCourse (Setup.limited (trial records true) 3 4) (bytesState #[1, 2, 3, 4]) acts
        (decode (Setup.limited (trial records true) 3 4) (bytesState #[1, 2, 3, 4])) ∧
      reads acts ≤ 441 := by
  have hg : records.resolve = .ok (Setup.limited (trial records true) 3 4).grammar :=
    Grammar.resolve_sound (by decide +kernel)
  obtain ⟨-,-,⟨⟨acts,hacts⟩,hends⟩,-⟩ :=
    decode_terminates (Grammar.built_forest records_built) hg (bytesState #[1, 2, 3, 4])
  have hmost : (Setup.limited (trial records true) 3 4).mostReads records.size = 441 := by
    decide +kernel
  exact ⟨acts,hacts,hmost ▸ (hends _ _ hacts).2.few⟩

end ByteGrammar
