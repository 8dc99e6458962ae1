import ByteGrammar.Proofs.Decode.Shape

/-!
# How the rounds of the root end

The root repeats its start element as often as it can: until the data is used up, until there are
as many values as may be, behind a value that takes up no bytes, or where the element cannot be
read once more.
-/

set_option autoImplicit false

namespace ByteGrammar

open Stepwise DecodeM Source Value

variable {μ : Type}

inductive Repeated (attempt : DecodeM μ Value) :
    Nat → State μ → List Value → Nat → State μ → Prop
  | done (place : Nat) (σ : State μ) : Repeated attempt place σ [] place σ
  | more {place finish : Nat} {σ ρ τ : State μ} {v : Value} {values : List Value}
      (read : attempt (σ.moved place) = (.ok v,ρ))
      (rest : Repeated attempt (place + v.length) ρ values finish τ) :
      Repeated attempt place σ (v :: values) finish τ

inductive Stops (attempt : DecodeM μ Value) (most : Option Nat) (length : Nat)
    (values : List Value) (finish : Nat) (ω : State μ) : Prop
  | full (reached : reached values.length most = true)
  | used (behind : length ≤ finish)
  | empty {v : Value} (last : values.getLast? = some v) (zero : v.length = 0)
  | refused {fault : DecodeFault} {φ : State μ}
      (read : attempt (ω.moved finish) = (.error fault,φ)) (mild : fault.isFatal = false)

/-- The values that the rounds add to the `earlier` ones, and why there is none behind the last. -/
structure Exhausted (attempt : DecodeM μ Value) (most : Option Nat) (length : Nat)
    (earlier : List Value) (place : Nat) (σ : State μ) (values : List Value) (finish : Nat)
    (ω : State μ) : Prop where
  repeated : Repeated attempt place σ values finish ω
  filled : ∀ w ∈ values.dropLast, w.length ≠ 0
  allowed : ∀ n, most = some n → earlier.length ≤ n → (earlier ++ values).length ≤ n
  stops : Stops attempt most length (earlier ++ values) finish ω

section
variable {setup : Setup μ} {attempt : DecodeM μ Value} {least : Nat} {most : Option Nat}
  {length : Nat}

theorem exhausted_none {earlier : List Value} {place : Nat} {σ : State μ}
    (h : Stops attempt most length earlier place σ) :
    Exhausted attempt most length earlier place σ [] place σ := by
  refine ⟨.done place σ,List.forall_mem_nil _,fun n _ hle => ?_,?_⟩
  · rw [List.append_nil]
    exact hle
  · rw [List.append_nil]
    exact h

/-- One more round, behind which others may follow if it has taken up bytes. -/
theorem Exhausted.after {earlier values : List Value} {place finish : Nat} {σ ρ ω : State μ}
    {v : Value} (room : reached earlier.length most = false)
    (read : attempt (σ.moved place) = (.ok v,ρ)) (hv : v.length ≠ 0 ∨ values = [])
    (h : Exhausted attempt most length (earlier ++ [v]) (place + v.length) ρ values finish ω) :
    Exhausted attempt most length earlier place σ (v :: values) finish ω := by
  obtain ⟨hrepeated,hfilled,hallowed,hstops⟩ := h
  rw [List.append_assoc] at hallowed hstops
  refine ⟨.more read hrepeated,?_,fun n hn hle => ?_,hstops⟩
  · cases values with
    | nil => exact List.forall_mem_nil _
    | cons w values =>
      rw [List.dropLast_cons_of_ne_nil (List.cons_ne_nil w values)]
      exact List.forall_mem_cons.mpr ⟨hv.resolve_right (List.cons_ne_nil w values),hfilled⟩
  · subst hn
    refine hallowed n rfl ?_
    simp only [reached, decide_eq_false_iff_not] at room
    rw [List.length_append, List.length_singleton]
    omega

/-- Rounds that may be as many as there are bytes left go on as long as they can. -/
theorem repeat_start_exhausts {rounds : Nat} {children last : Array Value}
    {consumed finish : Nat} {σ τ : State μ} (hrounds : length ≤ rounds + consumed)
    (h : repeatStart setup attempt least most length rounds children consumed σ =
      (.ok (last,finish),τ)) :
    ∃ values ω, last.toList = children.toList ++ values ∧
      Exhausted attempt most length children.toList consumed σ values finish ω := by
  -- A round that goes on has taken up a byte, so there stay as many rounds as bytes.
  induction rounds generalizing children consumed σ with
  | zero =>
    obtain ⟨hc,rfl⟩ := pure_ok.mp h
    cases hc
    rw [Nat.zero_add] at hrounds
    exact ⟨[],σ,(List.append_nil _).symm,exhausted_none (.used hrounds)⟩
  | succ rounds ih =>
    rw [repeatStart] at h
    by_cases hfull : reached children.size most || length ≤ consumed
    · rw [if_pos hfull] at h
      obtain ⟨hc,rfl⟩ := pure_ok.mp h
      cases hc
      refine ⟨[],σ,(List.append_nil _).symm,exhausted_none ?_⟩
      rcases Bool.or_eq_true_iff.mp hfull with hmost | hused
      · exact .full hmost
      · exact .used (of_decide_eq_true hused)
    · rw [if_neg hfull] at h
      obtain ⟨hroom,hin⟩ : reached children.size most = false ∧ consumed < length := by
        simpa using hfull
      obtain ⟨_,_,hs,h1⟩ := bind_ok.mp h
      obtain rfl := seek_ok hs
      obtain ⟨_,_,hget,h2⟩ := bind_ok.mp h1
      cases hget
      obtain ⟨result,υ,hout,h3⟩ := bind_ok.mp h2
      have hread := outcome_ok hout
      cases result with
      | ok v =>
        dsimp only at h3
        by_cases hz : v.length = 0
        · rw [if_pos hz] at h3
          obtain ⟨hc,rfl⟩ := pure_ok.mp h3
          cases hc
          refine ⟨[v],_,Array.toList_push,.after hroom hread (.inr rfl) (exhausted_none ?_)⟩
          exact .empty List.getLast?_concat hz
        · rw [if_neg hz] at h3
          obtain ⟨values,ω,hlast,hrest⟩ := ih (by omega) h3
          rw [Array.toList_push] at hlast hrest
          refine ⟨v :: values,ω,?_,.after hroom hread (.inl hz) hrest⟩
          rw [hlast, List.append_assoc]
          rfl
      | error fault =>
        have hstop : stopAfter least children consumed σ.history fault υ =
            (.ok (last,finish),τ) := h3
        obtain ⟨rfl,rfl,hmild,-⟩ := stop_after_settles hstop
        exact ⟨[],σ,(List.append_nil _).symm,exhausted_none (.refused hread hmild)⟩

end

section
variable {setup : Setup μ} {frames : List Frame} {id : ElementId} {q : Quantity} {σ τ : State μ}

theorem evaluate_in_memory {result : Except DecodeFault Int} (hσ : σ.source.InMemory)
    (h : evaluate setup frames id q σ = (result,τ)) : τ = σ := by
  have hsource := ((evaluate_quiet setup frames id q).of_run h).source.eq hσ
  rw [evaluate_run] at h
  rcases hr : q.eval setup.grammar σ.history frames σ.source.position σ.source with
    ⟨fault | n, source⟩ <;> rw [hr] at h <;> cases h <;>
    exact congrArg (fun source => { σ with source }) hsource

theorem bound_in_memory {α : Type} {bound : Attributes → Quantity} {reading : Int → α} {a : α}
    (hσ : σ.source.InMemory) (h : boundOf setup frames id bound reading σ = (.ok a,τ)) :
    τ = σ ∧ ∃ n, evaluate setup frames id (bound (setup.grammar.attributesOf id)) σ =
      (.ok n,σ) ∧ a = reading n := by
  obtain ⟨n,ρ,hn,h1⟩ := bind_ok.mp h
  obtain ⟨rfl,rfl⟩ := pure_ok.mp h1
  obtain rfl := evaluate_in_memory hσ hn
  exact ⟨rfl,n,hn,rfl⟩

end

/-- The values that the rounds have read are labelled by the start element, follow each other and
lie in the source. -/
theorem Repeated.placed {setup : Setup μ} (hg : setup.grammar.Linked) {length : Nat}
    {id : ElementId} {place finish : Nat} {values : List Value} {σ τ : State μ}
    (h : Repeated (readInRoot setup length id) place σ values finish τ) (hplace : place ≤ length) :
    (∀ w ∈ values, w.element = id) ∧ Tiles place values finish ∧ finish ≤ length := by
  induction h with
  | done => exact ⟨List.forall_mem_nil _,rfl,hplace⟩
  | more read rest ih =>
    obtain ⟨hv,-⟩ := read_element_placed hg read
    have hfinish := hv.inside
    simp only [State.moved, limit_at_cons, Value.finish, hv.offset] at hfinish
    obtain ⟨hlabels,htiles,hin⟩ := ih (by omega)
    refine ⟨List.forall_mem_cons.mpr ⟨hv.element,hlabels⟩,⟨hv.offset,?_⟩,hin⟩
    rw [Value.finish, hv.offset]
    exact htiles

theorem Stops.at_bound {attempt : DecodeM μ Value} {most : Int} {length : Nat}
    {values : List Value} {finish : Nat} {ω : State μ}
    (h : Stops attempt (if most < 0 then none else some most.toNat) length values finish ω)
    (hallowed : 0 ≤ most → values.length ≤ most) (hin : finish ≤ length) :
    finish = length ∨ (values.length : Int) = most ∨
      (∃ w, values.getLast? = some w ∧ w.length = 0) ∨
      ∃ fault φ, attempt (ω.moved finish) = (.error fault,φ) ∧ fault.isFatal = false := by
  cases h with
  | used behind => exact .inl (Nat.le_antisymm hin behind)
  | empty last zero => exact .inr (.inr (.inl ⟨_,last,zero⟩))
  | refused read mild => exact .inr (.inr (.inr ⟨_,_,read,mild⟩))
  | full full =>
    by_cases hmost : most < 0
    · rw [if_pos hmost] at full
      cases full
    · rw [if_neg hmost] at full
      have hle := of_decide_eq_true full
      have hge := hallowed (Int.not_lt.mp hmost)
      exact .inr (.inl (by omega))

def State.atRoot (setup : Setup μ) (σ : State μ) : State μ :=
  (σ.begun setup 0).noted (.decoding σ.source.length)

theorem at_root_begun (setup : Setup μ) (σ : State μ) : Begun σ (σ.atRoot setup) 0 :=
  ⟨(Follows.refl σ.source).moved 0,rfl,rfl⟩

/-- The root repeats the start element as often as it can. With the bounds of the start element as
they are worked out at the start of the source with nothing recorded, its children are read from
there on one after the other, at least as many as must be and no more than may be, and only the last
can be empty. And they are followed by no other one because they fill the source, are as many as may
be, end with an empty one, or because the start element cannot be read once more where they end, in
the state that they have left. -/
theorem root_repeats_start {authored : Grammar} {setup : Setup μ}
    (hg : authored.resolve = .ok setup.grammar) {σ τ : State μ} (hσ : σ.source.InMemory)
    {v : Value} (h : decode setup σ = (.ok v,τ)) :
    ∃ (least most : Int) (ω : State μ),
      evaluate setup [⟨Grammar.root,0,σ.source.length⟩] setup.grammar.start
        (setup.grammar.attributesOf setup.grammar.start).least (σ.atRoot setup) =
          (.ok least,σ.atRoot setup) ∧
      evaluate setup [⟨Grammar.root,0,σ.source.length⟩] setup.grammar.start
        (setup.grammar.attributesOf setup.grammar.start).most (σ.atRoot setup) =
          (.ok most,σ.atRoot setup) ∧
      Repeated (readInRoot setup σ.source.length setup.grammar.start) 0 (σ.atRoot setup)
        v.children v.length ω ∧
      (∀ w ∈ v.children, w.element = setup.grammar.start) ∧ Tiles 0 v.children v.length ∧
      max 0 least ≤ v.children.length ∧ (0 ≤ most → v.children.length ≤ most) ∧
      (∀ w ∈ v.children.dropLast, w.length ≠ 0) ∧
      (v.length = σ.source.length ∨ (v.children.length : Int) = most ∨
        (∃ w, v.children.getLast? = some w ∧ w.length = 0) ∨
        ∃ fault φ, readInRoot setup σ.source.length setup.grammar.start (ω.moved v.length) =
          (.error fault,φ) ∧ fault.isFatal = false) := by
  have hl := Grammar.resolve_linked hg
  have hroot : (σ.atRoot setup).source.InMemory := (at_root_begun setup σ).reader.in_memory hσ
  rw [decode_eq] at h
  obtain ⟨w,υ,hread,hcheck⟩ := bind_ok.mp h
  obtain ⟨rfl,rfl⟩ := check_root_ok hcheck
  obtain ⟨few,many,ρ,χ,children,consumed,ω',hleast,hmost,hrounds,henough,rfl,rfl⟩ :=
    read_root_repeats hread
  obtain ⟨rfl,least,hleast',rfl⟩ := bound_in_memory hroot hleast
  obtain ⟨rfl,most,hmost',rfl⟩ := bound_in_memory hroot hmost
  obtain ⟨values,ω,hvalues,hrepeated,hfilled,hallowed,hstops⟩ :=
    repeat_start_exhausts (Nat.le_add_right _ _) hrounds
  rw [List.nil_append] at hvalues hallowed hstops
  obtain ⟨hlabels,htiles,hin⟩ := hrepeated.placed hl (Nat.zero_le _)
  have hlength : (Value.spanning Grammar.root 0 children.toList).length = consumed := by
    rw [hvalues, ← tiles_length htiles, Nat.zero_add]
    rfl
  have hsize : children.size = values.length := by rw [← Array.length_toList, hvalues]
  have hmany : 0 ≤ most → (values.length : Int) ≤ most := by
    intro hmost
    have hle := hallowed most.toNat (if_neg (Int.not_lt.mpr hmost)) (Nat.zero_le _)
    omega
  have hfew : max 0 least ≤ values.length := by
    rw [hsize] at henough
    omega
  rw [hlength, show (Value.spanning Grammar.root 0 children.toList).children = values from hvalues]
  exact ⟨least,most,ω,hleast',hmost',hrepeated,hlabels,htiles,hfew,hmany,hfilled,
    hstops.at_bound hmany hin⟩

def ones : Grammar :=
  ((Grammar.new "ones").add
    ((((Element.number "one").withLength (.literal 1)).withValue ⟨"one",1⟩).withMost
      (.literal 5))).setStart (.index 1)

def onesSetup : Setup Unit := Setup.plain ones

theorem ones_repeated :
    ∃ v τ ω fault φ, decode onesSetup (bytesState #[1, 1, 2]) = (.ok v,τ) ∧
      v.children.length = 2 ∧ v.length = 2 ∧
      Repeated (readInRoot onesSetup 3 1) 0 ((bytesState #[1, 1, 2]).atRoot onesSetup) v.children 2
        ω ∧
      readInRoot onesSetup 3 1 (ω.moved 2) = (.error fault,φ) ∧ fault.isFatal = false := by
  have hg : ones.resolve = .ok onesSetup.grammar := Grammar.resolve_sound (by decide +kernel)
  have hσ : (bytesState #[1, 1, 2]).source.InMemory := of_bytes_in_memory _
  have hstart : onesSetup.grammar.start = 1 := by decide +kernel
  have hbound : (onesSetup.grammar.attributesOf 1).most = .literal 5 := by decide +kernel
  obtain ⟨v,τ,hv⟩ := run_ok (r := decode onesSetup (bytesState #[1, 1, 2])) (by decide +kernel)
  have hshape : (decode onesSetup (bytesState #[1, 1, 2])).1.toOption.map
      (fun v => (v.length,v.children.map Value.length)) = some (2,[1, 1]) := by decide +kernel
  rw [hv] at hshape
  obtain ⟨hlength,hchildren⟩ := Prod.mk.inj (Option.some.inj hshape)
  have hcount : v.children.length = 2 := by rw [← List.length_map Value.length, hchildren]; rfl
  obtain ⟨least,most,ω,-,hmost,hrepeated,-,-,-,-,-,hend⟩ := root_repeats_start hg hσ hv
  rw [hstart] at hmost hrepeated hend
  rw [hbound, evaluate_literal] at hmost
  cases hmost
  rw [hlength] at hrepeated hend
  rcases hend with hused | hfull | ⟨w,hw,hzero⟩ | ⟨fault,φ,hread,hmild⟩
  · cases hused
  · rw [hcount] at hfull
    cases hfull
  · have hmem : w.length ∈ v.children.map Value.length :=
      List.mem_map_of_mem (List.mem_of_getLast? hw)
    rw [hchildren, hzero] at hmem
    cases hmem with
    | tail _ hmem => cases hmem with
      | tail _ hmem => cases hmem
  · exact ⟨v,τ,ω,fault,φ,hv,hcount,hlength,hrepeated,hread,hmild⟩

end ByteGrammar
