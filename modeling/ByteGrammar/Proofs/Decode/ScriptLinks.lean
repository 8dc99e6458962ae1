import ByteGrammar.Proofs.Decode.Elsewhere
import ByteGrammar.Proofs.Decode.Tally
import ByteGrammar.Proofs.Resolved.Lengths

/-!
# Links to scripts

The script that an element runs is the one that it links itself. A link that is left open stays
open, whatever the bases of the element link: a script element without a link of its own cannot be
decoded, and a custom without one is read as the bytes that it spans and runs nothing.
-/

set_option autoImplicit false

namespace ByteGrammar

open Stepwise DecodeM

variable {μ : Type}

def Kind.RunsBy (k : Kind) (link : Option Designator) : Prop :=
  k = .scriptElement link ∨ k = .custom link

namespace Grammar

variable {authored : Grammar} {id : Nat}

theorem link_of_runs {e : Element} {link : Option Designator} (h : e.kind.RunsBy link) :
    e.link? = link.map (·, .script) := by
  rcases h with h | h <;> rw [Element.link?, h]

theorem holder_of_runs {g : Resolved} {link : Option Designator} (h : (g.kind id).RunsBy link) :
    g.scriptHolder? id = (g.attributesOf id).target := by
  rcases h with h | h <;> simp only [Resolved.scriptHolder?, h]

theorem open_link_target (h : (authored.link.1.kind id).RunsBy none) :
    (authored.link.1.attributesOf id).target = none := by
  cases ht : (authored.link.1.attributesOf id).target with
  | none => rfl
  | some t =>
    obtain ⟨designator,aim,hlink,-⟩ := target_ok (link_target ht)
    cases hlink.symm.trans (link_of_runs (e := (authored.push .padding).element id) h)

theorem open_link_script (h : (authored.link.1.kind id).RunsBy none) :
    authored.link.1.script? id = none := by
  rw [Resolved.script?, holder_of_runs h, open_link_target h]
  rfl

/-- In a grammar without faults, a link leads to the script that the element runs. -/
theorem own_link_script (hlink : authored.link.2 = []) {r : Designator}
    (h : (authored.link.1.kind id).RunsBy (some r)) :
    ∃ t script, authored.link.1.grammar.follow id .script r = .ok t ∧
      authored.link.1.kind t = .script script ∧ authored.link.1.script? id = some script := by
  have hknown : id < authored.size + 1 := by
    refine link_lt ?_
    rcases h with h | h <;> rw [h] <;> nofun
  have hown : ((authored.push .padding).element id).link? = some (r,.script) := link_of_runs h
  obtain ⟨-,-,-,-,htargets⟩ := (link_faults_nil authored).mp hlink
  obtain ⟨t,ht⟩ := (target_faults_nil.mp (htargets id hknown)).2 _ _ hown
  have hscript : (authored.link.1.kind t).isScript := (follow_ok ht).2
  cases hk : authored.link.1.kind t with
  | script script =>
    refine ⟨t,script,ht,hk,?_⟩
    have hholder : authored.link.1.scriptHolder? id = some t := by
      rw [holder_of_runs h, link_target_eq hknown, target_followed hown ht]
    simp only [Resolved.script?, hholder, Option.bind_eq_bind, Option.bind_some, hk]
  | _ =>
    rw [hk] at hscript
    cases hscript

end Grammar

section
variable {setup : Setup μ} {id : ElementId}

/-- An element that has no script to run takes up no bytes and cannot be read. -/
theorem read_without_script {link : Option Designator}
    (hk : setup.grammar.kind id = .scriptElement link) (hscript : setup.grammar.script? id = none)
    (hlength : (setup.grammar.attributesOf id).length = some (.literal 0)) (room : Nat)
    (frames : List Frame) (σ : State μ) :
    ∃ τ, readElement setup (room + 1) frames id σ =
      (.error (.breach (.noScript (setup.grammar.label id))),τ) := by
  have hread : ∀ ρ : State μ, readScript setup id ρ =
      (.error (.breach (.noScript (setup.grammar.label id))),ρ) := fun ρ => by
    simp only [readScript, runScript, hscript]
    rfl
  refine ⟨(σ.noted (.reading σ.source.position id)).noted (.failed σ.source.position id
    (.breach (.noScript (setup.grammar.label id)))),?_⟩
  rw [read_opened room (byte_length_empty frames hlength σ)
    (by rw [readKind, hk]; exact hread _)]
  rfl

theorem read_custom_silent {link : Option Designator} (hk : setup.grammar.kind id = .custom link)
    (ht : (setup.grammar.attributesOf id).target = none) (runtime : Option (Runtime μ))
    (room : Nat) (frames : List Frame) :
    readElement { setup with runtime } room frames id = readElement setup room frames id := by
  cases room with
  | zero => rfl
  | succ room =>
    have hread : ∀ frame frames declared attempt attempt',
        readKind { setup with runtime } attempt frame frames id declared =
          readKind setup attempt' frame frames id declared := by
      intro frame frames declared attempt attempt'
      simp only [readKind, hk, readCustom, ht]
      rfl
    rw [readElement, readElement, read_with_closing, read_with_closing]
    refine congrArg (opening setup frames id >>= ·) (funext fun opened => ?_)
    rw [hread _ _ _ _ (readElement setup room (opened.1 :: frames))]
    rfl

end

/-- What the script of an element is, and what reading the element comes to if it has none. -/
structure OwnScript (setup : Setup μ) (id : ElementId) : Prop where
  /-- A link leads to the script that is run. -/
  linked : ∀ r, (setup.grammar.kind id).RunsBy (some r) → ∃ t script,
    setup.grammar.grammar.follow id .script r = .ok t ∧ setup.grammar.kind t = .script script ∧
      setup.grammar.script? id = some script
  /-- Without a link there is no script. -/
  absent : (setup.grammar.kind id).RunsBy none → setup.grammar.script? id = none
  /-- A script element without a link cannot be read, in whatever state. -/
  unread : setup.grammar.kind id = .scriptElement none → ∀ room frames σ, ∃ τ,
    readElement setup (room + 1) frames id σ =
      (.error (.breach (.noScript (setup.grammar.label id))),τ)
  /-- A custom without a link is read in the same way with any runtime, and without one. -/
  silent : setup.grammar.kind id = .custom none → ∀ runtime room frames,
    readElement { setup with runtime } room frames id = readElement setup room frames id

/-- Elements run the scripts that they link themselves, and no link is taken from a base. -/
theorem scripts_are_own {authored : Grammar} {setup : Setup μ}
    (hg : authored.resolve = .ok setup.grammar) (id : ElementId) : OwnScript setup id := by
  obtain ⟨heq,hlink,-⟩ := Grammar.resolve_ok hg
  have hopen : (setup.grammar.kind id).RunsBy none → setup.grammar.script? id = none := by
    rw [heq]
    exact Grammar.open_link_script
  refine ⟨fun r hr => ?_,hopen,fun hk room frames σ => ?_,fun hk runtime room frames => ?_⟩
  · rw [heq] at hr ⊢
    exact Grammar.own_link_script hlink hr
  · have hlength : (setup.grammar.attributesOf id).length = some (.literal 0) := by
      have hstated : (setup.grammar.element id).settings.length = some (.literal 0) := by
        simp only [Element.settings, show (setup.grammar.element id).kind = _ from hk]
      rw [heq] at hk hstated ⊢
      exact Grammar.link_stated_length (Grammar.link_lt (hk ▸ Kind.noConfusion)) hstated
    exact read_without_script hk (hopen (.inl hk)) hlength room frames σ
  · have ht : (setup.grammar.attributesOf id).target = none := by
      rw [heq] at hk ⊢
      exact Grammar.open_link_target (.inr hk)
    exact read_custom_silent hk ht runtime room frames

def annotated : Grammar :=
  let g := (Grammar.new "annotated").add (Element.script "note" "command" "")
  let g := g.add (Element.struct "record")
  let tag := ((Element.custom "tag").withLength (.literal 1)).withScript (.name "note")
  let g := (g.addChildren 2 [tag, (Element.custom "mark").withBase (.name "tag"),
    Element.scriptElement "first" (some (.name "note")),
    (Element.scriptElement "second" none).withBase (.name "first")]).toOption.getD g
  g.setStart (.name "record")

def annotatedSetup : Setup Unit := Setup.plain annotated

theorem annotated_own : OwnScript annotatedSetup 4 ∧ OwnScript annotatedSetup 6 :=
  have hg : annotated.resolve = .ok annotatedSetup.grammar :=
    Grammar.resolve_sound (by decide +kernel)
  ⟨scripts_are_own hg 4,scripts_are_own hg 6⟩

/-- The two that extend others run no script, although those do, and the second script element ends
the decode. -/
theorem annotated_uninherited :
    annotated.resolve = .ok annotatedSetup.grammar ∧
    (annotatedSetup.grammar.attributesOf 4).base = some 3 ∧
    annotatedSetup.grammar.kind 4 = .custom none ∧
    (annotatedSetup.grammar.script? 3).map Script.name = some "note" ∧
    annotatedSetup.grammar.script? 4 = none ∧
    (annotatedSetup.grammar.attributesOf 6).base = some 5 ∧
    annotatedSetup.grammar.kind 6 = .scriptElement none ∧
    (annotatedSetup.grammar.script? 5).map Script.name = some "note" ∧
    annotatedSetup.grammar.script? 6 = none ∧
    (decode annotatedSetup (bytesState #[7, 8])).1 =
      .error (.breach (.noScript "ScriptElement<00 second>")) := by
  refine ⟨Grammar.resolve_sound (by decide +kernel),by decide +kernel,rfl,by decide +kernel,
    Grammar.open_link_script (.inr rfl),by decide +kernel,rfl,by decide +kernel,
    Grammar.open_link_script (.inl rfl),fault_of_some.mp (by decide +kernel)⟩

end ByteGrammar
