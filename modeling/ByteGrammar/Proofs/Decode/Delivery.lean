import ByteGrammar.Proofs.Decode.History
import ByteGrammar.Proofs.Decode.Likeness
import ByteGrammar.Proofs.Source.Delivered

/-!
# How the bytes are delivered does not matter

A decode over a reader comes to what it comes to over the same bytes in memory, or the reader has
failed and the decode ends with that. Numbers are read again as a decode goes along. Those reads
cannot fail: a number is recorded only where all of its bytes lie before the place from which on
the reader fails.
-/

set_option autoImplicit false

namespace ByteGrammar

open Stepwise DecodeM Source

variable {μ : Type}

def Likeness.delivered (g : Resolved) (fail : Option Nat) (hi : Nat) : Likeness g where
  failing := fail.isSome
  lo := 0
  hi := hi
  related := Delivers fail
  known v := (g.kind v.element).isNumber → v.Before fail
  position h := h.position
  length h := by rw [h.memory.length, h.data, h.length]
  moved := Delivers.moved
  read h _ := h.read _
  again hv hnumber := (hv hnumber).blurred

section
variable {setup : Setup μ} {fail : Option Nat}

theorem read_number_before {frame : Frame} {id : ElementId} {declared : Option Nat}
    {σ υ : State μ} {t : Source} {v : Value} (hσ : Delivers fail σ.source t)
    (h : readNumber setup frame id declared σ = (.ok v,υ)) : v.Before fail := by
  obtain ⟨n,_,hn,h1⟩ := bind_ok.mp h
  obtain ⟨-,rfl⟩ := integer_length_ok hn
  obtain ⟨start,_,hc,h2⟩ := bind_ok.mp h1
  obtain ⟨rfl,rfl,-⟩ := claim_ok hc
  obtain ⟨bytes,u,ht,h3⟩ := bind_ok.mp h2
  obtain ⟨order,_,-,h4⟩ := bind_ok.mp h3
  have hbefore : ∀ place ∈ fail, σ.source.position + n ≤ max place σ.source.position := by
    rw [take_run] at ht
    rcases hr : Source.read n σ.source with ⟨_ | found, s⟩ <;> rw [hr] at ht <;> cases ht
    exact hσ.before hr
  rcases hm : MachineInt.ofBytes? order (setup.grammar.attributesOf id).signed bytes with _ | i <;>
    rw [hm] at h4
  · cases h4
  · obtain ⟨-,matched,rfl⟩ := match_fixed_ok h4
    exact hbefore

theorem delivered_knows {attempt : List Frame → ElementId → DecodeM μ Value} {hi : Nat}
    (hg : setup.grammar.Linked) (ha : ∀ frames, KeepsReader (attempt frames))
    (hplaced : ∀ {frames id σ v τ}, attempt frames id σ = (.ok v,τ) →
      Placed setup.grammar id σ.source.position (limitAt frames σ) v ∧
        τ.source.position = v.finish) :
    (Likeness.delivered setup.grammar fail hi).Knows attempt := by
  intro frame frames id declared σ τ υ v hhi hle hstart hσ hst h hnumber
  obtain ⟨hv,-⟩ := reads_placed hg hplaced hstart hle (read_kind_ok (ha _) h)
  rw [hv.element] at hnumber
  unfold readKind at h
  cases hk : setup.grammar.kind id with
  | number settings =>
    rw [hk] at h
    exact read_number_before hst.source h
  | _ => simp [hk, Kind.isNumber] at hnumber

theorem begun_delivered (setup : Setup μ) {σ τ : State μ} (hchunk : σ.source.chunk ≠ some 0)
    (hlength : σ.source.length = σ.source.data.size)
    (hτ : τ.source = Source.ofBytes σ.source.data) (hi offset : Nat) :
    (Likeness.delivered setup.grammar σ.source.failAt hi).States (σ.begun setup offset)
      (τ.begun setup offset) := by
  have hsource : Delivers σ.source.failAt { σ.source with position := offset }
      { τ.source with position := offset } := by
    rw [hτ]
    exact ⟨(of_bytes_in_memory _).moved offset,rfl,rfl,hchunk,hlength,rfl⟩
  exact ⟨hsource,rfl,rfl,rfl,nofun⟩

end

/-- What a decode over the reader comes to, beside the one over its bytes in memory: the failure of
the reader, or the same result with the same values recorded and counted. -/
def Delivered (reader : Source) (read memory : Except DecodeFault Value × State μ) : Prop :=
  (reader.failAt.isSome ∧ ∃ text, read.1 = .error (.source (.io text))) ∨
    (read.1 = memory.1 ∧ read.2.history = memory.2.history ∧ read.2.values = memory.2.values)

theorem blind_delivered {setup : Setup μ} {reader : Source} {hi : Nat} {pre : State μ → Prop}
    {step : DecodeM μ Value}
    (h : (Likeness.delivered setup.grammar reader.failAt hi).Blind pre step) {σ τ : State μ}
    (hst : (Likeness.delivered setup.grammar reader.failAt hi).States σ τ) (hσ : pre σ) :
    Delivered reader (step σ) (step τ) := by
  rcases h σ τ hst hσ with ⟨fault,hfault,hfail,hio⟩ | ⟨hresult,hstate⟩
  · refine .inl ⟨hfail,?_⟩
    cases fault with
    | source reason =>
      cases reason with
      | io text => exact ⟨text,hfault⟩
      | _ => cases hio
    | _ => cases hio
  · exact .inr ⟨hresult.symm,hstate.history.symm,hstate.values.symm⟩

/-- Whatever a reader makes of the deliveries, a decode over it comes to what it comes to over the
same bytes in memory, unless the reader has failed. -/
theorem decoded_as_delivered {authored : Grammar} {setup : Setup μ}
    (hg : authored.resolve = .ok setup.grammar) (hr : setup.runtime = none) {σ τ : State μ}
    (hchunk : σ.source.chunk ≠ some 0) (hlength : σ.source.length = σ.source.data.size)
    (hτ : τ.source = Source.ofBytes σ.source.data) :
    Delivered σ.source (decode setup σ) (decode setup τ) ∧
      ∀ (id : ElementId) (offset : Nat),
        Delivered σ.source (decodeElement setup id offset σ) (decodeElement setup id offset τ) := by
  have hl := Grammar.resolve_linked hg
  have hsame : τ.source.length = σ.source.length := by
    rw [hτ, (of_bytes_in_memory _).length, hlength]
    rfl
  have hknows : ∀ hi room, (Likeness.delivered setup.grammar σ.source.failAt hi).Knows
      (readElement setup room) := fun _ room =>
    delivered_knows hl (read_element_reader setup room) (read_element_placed hl)
  have hbegun := begun_delivered setup hchunk hlength hτ
  constructor
  · rw [decode_eq, decode_eq, hsame]
    have hroot : (Likeness.delivered setup.grammar σ.source.failAt σ.source.length).Blind
        (fun _ => True) (readRoot setup σ.source.length >>= checkRoot setup) :=
      bind_blind_any (Likeness.read_root_blind hl hr (hknows _) rfl (Nat.le_refl _))
        Likeness.check_root_blind
    exact blind_delivered hroot ⟨(hbegun _ 0).source,rfl,rfl,rfl,nofun⟩ trivial
  · intro id offset
    rw [decode_element_eq, decode_element_eq, hsame]
    have hin : (Likeness.delivered setup.grammar σ.source.failAt
        (max offset σ.source.length)).Between (σ.begun setup offset) :=
      ⟨Nat.zero_le _,Nat.le_max_left _ _⟩
    exact blind_delivered (Likeness.read_in_root_blind hl hr (hknows _) (Nat.le_max_right _ _) id)
      (hbegun _ offset) hin

def slowState (data : Array UInt8) (fail : Option Nat) : State Unit :=
  let reader : Source :=
    { data, chunk := some 1, claim := some data.size, failAt := fail,
      interrupts := [false, false, true, false, true, true] }
  State.new {} reader () false

theorem packets_delivered :
    (decode (Setup.plain packets) (slowState #[2, 7, 8, 0] none)).1 =
        (decode (Setup.plain packets) (bytesState #[2, 7, 8, 0])).1 ∧
      Delivered (slowState #[2, 7, 8, 0] (some 3)).source
        (decode (Setup.plain packets) (slowState #[2, 7, 8, 0] (some 3)))
        (decode (Setup.plain packets) (bytesState #[2, 7, 8, 0])) := by
  have hg : packets.resolve = .ok packets.link.1 := Grammar.resolve_sound (by decide +kernel)
  have hall : ∀ fail, Delivered (slowState #[2, 7, 8, 0] fail).source
      (decode (Setup.plain packets) (slowState #[2, 7, 8, 0] fail))
      (decode (Setup.plain packets) (bytesState #[2, 7, 8, 0])) := fun fail =>
    (decoded_as_delivered hg rfl (fun h => by cases h) rfl rfl).1
  refine ⟨?_,hall (some 3)⟩
  rcases hall none with ⟨hfails,-⟩ | ⟨hsame,-⟩
  · cases hfails
  · exact hsame

end ByteGrammar
