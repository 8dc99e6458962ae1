import ByteGrammar.Proofs.Decode.Root
import ByteGrammar.Proofs.Resolved.Linked
import ByteGrammar.Proofs.Value.Tree

/-!
# The history of a decode

What is recorded while an element is read are the leaves of its value in their order, and nothing
of what was tried and given up. So a length that an earlier number gives is the one that the last
leaf of that name in the finished tree has.
-/

set_option autoImplicit false

namespace ByteGrammar

open Stepwise DecodeM Source Value

variable {μ : Type}

def Value.isRecorded (g : Resolved) (v : Value) : Bool := (g.kind v.element).isRecorded

def Value.recorded (g : Resolved) (v : Value) : List Value := v.preorder.filter (isRecorded g)

def Explained (g : Resolved) (data : Array UInt8) (v : Value) (older : List Value) : Prop :=
  ∀ name, g.needsLength v.element → (g.attributesOf v.element).length = some (.prev name) →
    (g.attributesOf v.element).unit = .byte →
    ∃ w i, latest? g name older = some w ∧ (g.kind w.element).isNumber ∧
      w.integer? g data = some i ∧ i.value = v.length

def Chained (g : Resolved) (data : Array UInt8) : List Value → Prop
  | [] => True
  | v :: older => Explained g data v older ∧ Chained g data older

theorem chained_suffix {g : Resolved} {data : Array UInt8} {newer older : List Value} {v : Value}
    (h : Chained g data (newer ++ v :: older)) : Explained g data v older := by
  induction newer with
  | nil => exact h.1
  | cons w newer ih => exact ih h.2

theorem recorded_eq (g : Resolved) (v : Value) :
    v.recorded g = (if v.isRecorded g then [v] else []) ++ v.children.flatMap (recorded g) := by
  have hc : (v.children.flatMap preorder).filter (isRecorded g) =
      v.children.flatMap (recorded g) := List.filter_flatMap
  rw [recorded, preorder_eq, List.filter_cons, hc]
  split <;> rfl

structure Recalled (g : Resolved) (data : Array UInt8) (σ : State μ) : Prop where
  memory : σ.source.InMemory
  bytes : σ.source.data = data
  chained : Chained g data σ.history

theorem Recalled.resumed {g : Resolved} {data : Array UInt8} {σ τ : State μ}
    (h : Recalled g data σ) (hr : State.Resumed σ τ) : Recalled g data τ :=
  ⟨hr.reader.in_memory h.memory,hr.reader.data.trans h.bytes,hr.history ▸ h.chained⟩

structure Recorded (g : Resolved) (σ : State μ) (v : Value) (τ : State μ) : Prop where
  history : τ.history = (v.recorded g).reverse ++ σ.history
  recalled : ∀ {data}, Recalled g data σ → Recalled g data τ

/-- A length from an earlier number is what the bytes of that number count. -/
theorem length_explained {setup : Setup μ} {frames : List Frame} {id : ElementId}
    {σ ρ : State μ} {length : Nat} {data : Array UInt8} {name : String}
    (hσ : Recalled setup.grammar data σ)
    (hname : (setup.grammar.attributesOf id).length = some (.prev name))
    (hunit : (setup.grammar.attributesOf id).unit = .byte)
    (hl : byteLength setup frames id σ = (.ok (some length),ρ)) :
    ∃ w i, latest? setup.grammar name σ.history = some w ∧
      (setup.grammar.kind w.element).isNumber ∧ w.integer? setup.grammar data = some i ∧
      i.value = length := by
  obtain ⟨n,υ,bytes,hn,hb,hd⟩ := byte_length_ok hname hl
  obtain ⟨t,ht⟩ := evaluate_ok hn
  obtain ⟨w,i,hw,hk,hi,rfl⟩ := Quantity.previous_in_memory hσ.memory ht
  have hlength := bytes_of_ok hb
  rw [hunit] at hlength
  dsimp only at hlength
  cases hd
  refine ⟨w,i,hw,hk,hσ.bytes ▸ hi,?_⟩
  rw [← MachineInt.to_signed_eq (by omega), hlength]

theorem Recorded.resumed {g : Resolved} {σ ρ υ τ : State μ} {v : Value}
    (h : Recorded g ρ v υ) (hσ : State.Resumed σ ρ) (hτ : State.Resumed υ τ) :
    Recorded g σ v τ :=
  ⟨by rw [hτ.history, h.history, hσ.history],fun hr => (h.recalled (hr.resumed hσ)).resumed hτ⟩

structure Listed (g : Resolved) (ρ : State μ) (children : List Value) (σ : State μ) :
    Prop where
  history : σ.history = (children.flatMap (recorded g)).reverse ++ ρ.history
  recalled : ∀ {data}, Recalled g data ρ → Recalled g data σ

theorem Listed.resumed {g : Resolved} {ρ σ τ : State μ} {children : List Value}
    (h : Listed g ρ children σ) (hr : State.Resumed σ τ) : Listed g ρ children τ :=
  ⟨hr.history.trans h.history,fun hρ => (h.recalled hρ).resumed hr⟩

theorem Listed.push {g : Resolved} {ρ σ τ : State μ} {children : List Value} {v : Value}
    (h : Listed g ρ children σ) (hv : Recorded g σ v τ) : Listed g ρ (children ++ [v]) τ := by
  refine ⟨?_,fun hr => hv.recalled (h.recalled hr)⟩
  rw [hv.history, h.history]
  simp

theorem recorded_plain {g : Resolved} {v : Value} (hk : v.isRecorded g = false) :
    v.recorded g = v.children.flatMap (recorded g) := by
  rw [recorded_eq, hk]
  rfl

section
variable {setup : Setup μ} {attempt : List Frame → ElementId → DecodeM μ Value}

theorem Closing.resumed {id : ElementId} {v : Value} {υ τ : State μ}
    (h : Closing setup id v υ τ) (hk : (setup.grammar.kind id).isRecorded = false) :
    State.Resumed υ τ := by
  refine ⟨h.source.toFollows,?_,h.values ▸ Nat.le_succ _⟩
  rw [h.history, hk]
  rfl

theorem leaf_recorded {frames : List Frame} {frame : Frame} {id : ElementId}
    {declared : Option Nat} {σ ρ υ τ : State μ} {v : Value}
    (opening : Opening setup frames id σ frame declared ρ)
    (read : LeafRead setup frame id declared ρ v υ) (kept : State.Kept ρ υ)
    (closing : Closing setup id v υ τ) : Recorded setup.grammar σ v τ := by
  have hkept := opening.quiet.kept.trans kept
  have hv : v.isRecorded setup.grammar = (setup.grammar.kind id).isRecorded := by
    rw [Value.isRecorded, read.element]
  cases hk : (setup.grammar.kind id).isRecorded with
  | false =>
    have hresumed := hkept.resumed.trans (closing.resumed hk)
    refine ⟨?_,fun hr => hr.resumed hresumed⟩
    rw [hresumed.history, recorded_plain (hv.trans hk), read.children]
    rfl
  | true =>
    have hhistory : τ.history = v :: σ.history := by
      rw [closing.history, hk, hkept.history]
      rfl
    refine ⟨?_,fun {data} hr => ?_⟩
    · rw [hhistory, recorded_eq, hv, hk, read.children]
      rfl
    · have hreader : State.SameReader σ τ :=
        (Follows.trans hkept.source closing.source.toFollows)
      refine ⟨hreader.in_memory hr.memory,hreader.data.trans hr.bytes,?_⟩
      rw [hhistory]
      refine ⟨fun name hneeds hname hunit => ?_,hr.chained⟩
      rw [read.element] at hneeds hname hunit
      obtain ⟨ρ',hlength⟩ := opening.length
      rw [read.declared hneeds] at hlength
      exact length_explained hr hname hunit hlength

theorem Advance.listed {attempt : ElementId → DecodeM μ Value} {arrangement : Arrangement}
    {members : Array ElementId} {frame : Frame} {frames : List Frame}
    (ih : ∀ {id σ v τ}, attempt id σ = (.ok v,τ) → Recorded setup.grammar σ v τ)
    {s s' : Search} {ρ σ τ : State μ}
    (h : Advance setup attempt arrangement members frame frames s σ s' τ)
    (hs : Listed setup.grammar ρ s.children.toList σ) :
    Listed setup.grammar ρ s'.children.toList τ := by
  cases h with
  | passed same later resumed =>
    rw [same]
    exact hs.resumed resumed
  | child hmember hmost room hleast hread =>
    have hstart := ((State.Resumed.refl σ).moved _).trans (child_quiet hmost hleast).kept.resumed
    rw [accept_children]
    exact hs.push ((ih hread).resumed hstart (State.Resumed.refl _))

theorem padding_unrecorded (hg : setup.grammar.Linked) {frame : Frame} {frames : List Frame}
    {id : ElementId} {declared : Option Nat} {s : Search} {ω υ : State μ} {padding : List Value}
    (h : Gathered setup frame frames id declared s ω padding υ) :
    padding.flatMap (recorded setup.grammar) = [] := by
  rcases h.filled with ⟨rfl,-⟩ | ⟨length,-,-,-,rfl⟩
  · rfl
  · have hk : (setup.grammar.kind setup.grammar.padding).isRecorded = false := by
      rw [hg.padding]
      rfl
    rw [List.flatMap_singleton, recorded_plain (v := Value.leaf _ _ _) hk]
    rfl

theorem reads_recorded (hg : setup.grammar.Linked)
    (ih : ∀ {frames id σ v τ}, attempt frames id σ = (.ok v,τ) →
      v.element = id ∧ Recorded setup.grammar σ v τ)
    {frames : List Frame} {frame : Frame} {id : ElementId} {declared : Option Nat}
    {σ ρ υ τ : State μ} {v : Value} (opening : Opening setup frames id σ frame declared ρ)
    (h : Reads setup (attempt (frame :: frames)) frame (frame :: frames) id declared ρ v υ)
    (closing : Closing setup id v υ τ) :
    v.element = id ∧ Recorded setup.grammar σ v τ := by
  have hρ := opening.quiet.kept.resumed
  cases h with
  | leaf simple read kept => exact ⟨read.element,leaf_recorded opening read kept closing⟩
  | reference kind linked read =>
    rename_i w link target
    obtain ⟨he,hw⟩ := ih read
    have htarget : w.isRecorded setup.grammar = false := by
      have hs := hg.target kind linked
      rw [Value.isRecorded, he]
      cases hk : setup.grammar.kind target <;> simp_all [Kind.isStruct, Kind.isRecorded]
    have hid : (setup.grammar.kind id).isRecorded = false := by
      rw [kind]
      rfl
    have hsame : ({ w with element := id } : Value).recorded setup.grammar =
        w.recorded setup.grammar := by
      rw [recorded_plain htarget]
      exact recorded_plain hid
    have hfinal := hw.resumed hρ (closing.resumed hid)
    exact ⟨rfl,⟨by rw [hsame]; exact hfinal.history,hfinal.recalled⟩⟩
  | struct kind search gathered =>
    rename_i s ω padding settings
    have hid : (setup.grammar.kind id).isRecorded = false := by
      rw [kind]
      rfl
    have hlisted : Listed setup.grammar ρ s.children.toList ω := by
      exact search.preserves (I := fun s σ => Listed setup.grammar ρ s.children.toList σ)
        (fun hadv hs => hadv.listed (fun hread => (ih hread).2) hs) ⟨rfl,fun hr => hr⟩
    have hend := gathered.resumed.trans (closing.resumed hid)
    refine ⟨rfl,⟨?_,fun hr => (hlisted.recalled (hr.resumed hρ)).resumed hend⟩⟩
    rw [recorded_plain (v := Value.spanning _ _ _) hid, hend.history, hlisted.history,
      hρ.history]
    show _ = ((s.children.toList ++ padding).flatMap (recorded setup.grammar)).reverse ++ _
    rw [List.flatMap_append, padding_unrecorded hg gathered, List.append_nil]

/-- What reading an element records are the leaves of its value. -/
theorem read_element_recorded (hg : setup.grammar.Linked) {room : Nat} {frames : List Frame}
    {id : ElementId} {σ τ : State μ} {v : Value}
    (h : readElement setup room frames id σ = (.ok v,τ)) :
    v.element = id ∧ Recorded setup.grammar σ v τ :=
  read_element_ok (P := fun _ id σ v τ => v.element = id ∧ Recorded setup.grammar σ v τ)
    (fun ih => reads_recorded hg ih) h

theorem rounds_recorded (hg : setup.grammar.Linked) {length : Nat} {id : ElementId}
    {most : Option Nat} {children : Array Value} {consumed : Nat} {σ τ : State μ}
    (h : Rounds (readInRoot setup length id) most length #[] 0 σ children consumed τ) :
    Listed setup.grammar σ children.toList τ := by
  refine h.preserves (I := fun children _ τ => Listed setup.grammar σ children.toList τ)
    (fun hr hs => hs.resumed hr) ?_ ⟨rfl,fun hr => hr⟩
  intro children consumed σ v τ hread hs
  have hv := (read_element_recorded hg hread).2
  rw [Array.toList_push]
  exact hs.push (hv.resumed ((State.Resumed.refl σ).moved consumed) (State.Resumed.refl τ))

theorem read_root_recorded (hg : setup.grammar.Linked) {length : Nat} {σ τ : State μ} {v : Value}
    (h : readRoot setup length σ = (.ok v,τ)) :
    v.element = Grammar.root ∧ Listed setup.grammar σ v.children τ := by
  obtain ⟨ρ,most,children,consumed,υ,hρ,hrounds,rfl,hυ,-⟩ := read_root_ok h
  have hl := (rounds_recorded hg hrounds).resumed hυ
  exact ⟨rfl,hl.history.trans (by rw [hρ.history]; rfl),fun hr => hl.recalled (hr.resumed hρ)⟩

end

/-- Among the nodes, every leaf whose length an earlier number gives, in bytes, is as long as the
last recorded leaf of that name says that comes before it, which is a number. -/
def LengthsAgree (g : Resolved) (data : Array UInt8) (nodes : List Value) : Prop :=
  ∀ before leaf after name, nodes = before ++ leaf :: after → g.needsLength leaf.element →
    (g.attributesOf leaf.element).length = some (.prev name) →
    (g.attributesOf leaf.element).unit = .byte →
    ∃ w i, latest? g name (before.filter (isRecorded g)).reverse = some w ∧
      (g.kind w.element).isNumber ∧ w.integer? g data = some i ∧ i.value = leaf.length

theorem recorded_of_needs {g : Resolved} {id : ElementId} (h : g.needsLength id) :
    (g.kind id).isRecorded := by
  unfold Resolved.needsLength at h
  cases hk : g.kind id <;> simp_all [Kind.isRecorded]

theorem chained_agree {g : Resolved} {data : Array UInt8} {nodes : List Value}
    (h : Chained g data (nodes.filter (isRecorded g)).reverse) : LengthsAgree g data nodes := by
  intro before leaf after name hsplit hneeds hname hunit
  have hleaf : leaf.isRecorded g := recorded_of_needs hneeds
  have hlist : (nodes.filter (isRecorded g)).reverse = (after.filter (isRecorded g)).reverse ++
      leaf :: (before.filter (isRecorded g)).reverse := by
    rw [hsplit, List.filter_append, List.filter_cons, if_pos hleaf]
    simp
  rw [hlist] at h
  exact chained_suffix h name hneeds hname hunit

theorem recalled_begin {g : Resolved} {σ ρ : State μ} {place : Nat} (hσ : σ.source.InMemory)
    (h : Begun σ ρ place) : Recalled g σ.source.data ρ :=
  ⟨h.reader.in_memory hσ,h.reader.data,by rw [h.history]; exact trivial⟩

/-- After a decode the history is the list of the recorded nodes of the value, depth first. Of a
decode of the whole source it holds those below the root, which are all of them unless the root is
of a recorded kind, as only a replaced one can be. Over bytes in memory, the lengths that earlier
numbers give are those that the finished tree shows. -/
theorem history_is_recorded {authored : Grammar} {setup : Setup μ}
    (hg : authored.resolve = .ok setup.grammar) (σ : State μ) :
    (∀ id offset v τ, decodeElement setup id offset σ = (.ok v,τ) →
      τ.history.reverse = v.recorded setup.grammar ∧
      (σ.source.InMemory → LengthsAgree setup.grammar σ.source.data v.preorder)) ∧
    (∀ v τ, decode setup σ = (.ok v,τ) →
      τ.history.reverse = v.children.flatMap (recorded setup.grammar) ∧
      (τ.history.reverse = v.recorded setup.grammar ↔
        (setup.grammar.kind Grammar.root).isRecorded = false) ∧
      (σ.source.InMemory →
        LengthsAgree setup.grammar σ.source.data (v.children.flatMap preorder) ∧
        ((setup.grammar.kind Grammar.root).isRecorded = false →
          LengthsAgree setup.grammar σ.source.data v.preorder))) := by
  have hl := Grammar.resolve_linked hg
  constructor
  · intro id offset v τ h
    obtain ⟨ρ,hρ,hread⟩ := decode_element_ok h
    obtain ⟨-,hv⟩ := read_element_recorded hl hread
    have hhistory : τ.history = (v.recorded setup.grammar).reverse := by
      rw [hv.history, hρ.history, List.append_nil]
    refine ⟨by rw [hhistory, List.reverse_reverse],fun hσ => chained_agree ?_⟩
    rw [← recorded, ← hhistory]
    exact (hv.recalled (recalled_begin hσ hρ)).chained
  · intro v τ h
    obtain ⟨ρ,hρ,hread⟩ := decode_ok h
    obtain ⟨he,hv⟩ := read_root_recorded hl hread
    have hhistory : τ.history = (v.children.flatMap (recorded setup.grammar)).reverse := by
      rw [hv.history, hρ.history, List.append_nil]
    have hroot : v.isRecorded setup.grammar = (setup.grammar.kind Grammar.root).isRecorded := by
      rw [Value.isRecorded, he]
    have hbelow : τ.history.reverse = v.children.flatMap (recorded setup.grammar) := by
      rw [hhistory, List.reverse_reverse]
    refine ⟨hbelow,?_,fun hσ => ?_⟩
    · rw [hbelow, recorded_eq, hroot]
      cases hk : (setup.grammar.kind Grammar.root).isRecorded with
      | false => simp
      | true =>
        refine ⟨fun h => ?_,nofun⟩
        have hlen := congrArg List.length h
        simp at hlen
    · have hchained := (hv.recalled (recalled_begin hσ hρ)).chained
      rw [hhistory] at hchained
      refine ⟨chained_agree ?_,fun hk => chained_agree ?_⟩
      · rw [List.filter_flatMap]
        exact hchained
      · rw [← recorded, recorded_plain (hroot.trans hk)]
        exact hchained

def packets : Grammar :=
  let g := (Grammar.new "packets").add ((Element.struct "packet").withMost .unlimited)
  let g := (g.addChild 1 ((Element.number "n").withLength (.literal 1))).toOption.getD g
  let g := (g.addChild 1 ((Element.binary "body").withLength (.prev "n"))).toOption.getD g
  g.setStart (.index 1)

theorem packets_history :
    ∃ v τ, decode (Setup.plain packets) (bytesState #[2, 7, 8, 0]) =
        (.ok v,τ) ∧
      τ.history.reverse = v.recorded packets.link.1 ∧
      LengthsAgree packets.link.1 #[2, 7, 8, 0] v.preorder := by
  have hg : packets.resolve = .ok packets.link.1 := Grammar.resolve_sound (by decide +kernel)
  have hroot : (packets.link.1.kind Grammar.root).isRecorded = false := by decide +kernel
  obtain ⟨v,τ,hv⟩ := run_ok
    (r := decode (Setup.plain packets) (bytesState #[2, 7, 8, 0]))
    (by decide +kernel)
  obtain ⟨-,hhistory,hlengths⟩ := (history_is_recorded hg (bytesState #[2, 7, 8, 0])).2 v τ hv
  exact ⟨v,τ,hv,hhistory.mpr hroot,(hlengths (of_bytes_in_memory _)).2 hroot⟩

def replacedBytes : Grammar :=
  (((Grammar.new "bytes").add
    (((Element.binary "byte").withLength (.literal 1)).withLeast (.literal 0))).setStart
      (.index 1)).replace Grammar.root ((Element.binary "bytes").withLength (.literal 1))

def remarked : Grammar :=
  let g := ((Grammar.new "remarked").add (Element.script "note" "Generic" "")).add
    (Element.struct "packet")
  let g := (g.addChildren 2 [(Element.number "n").withLength (.literal 1),
    Element.scriptElement "n" (some (.name "note")),
    (Element.binary "body").withLength (.prev "n")]).toOption.getD g
  g.setStart (.index 2)

/-- A root that is itself of a recorded kind is not in the history. Nor is a script, which may be
the last leaf of the name that measures a later one. -/
theorem leaves_unrecorded :
    (replacedBytes.resolve = .ok replacedBytes.link.1 ∧
      ∃ v τ, decode (Setup.plain replacedBytes) (bytesState #[]) = (.ok v,τ) ∧
        v.isRecorded replacedBytes.link.1 ∧ τ.history = [] ∧
        ¬τ.history.reverse = v.recorded replacedBytes.link.1) ∧
    (remarked.resolve = .ok remarked.link.1 ∧
      ∃ v τ n remark body, decode (Setup.plain remarked) (bytesState #[1, 7]) = (.ok v,τ) ∧
        v.leaves = [n, remark, body] ∧ remarked.link.1.needsLength body.element ∧
        (remarked.link.1.attributesOf body.element).length = some (.prev "n") ∧
        (remarked.link.1.attributesOf body.element).unit = .byte ∧
        latest? remarked.link.1 "n" [remark, n] = some remark ∧
        ¬(remarked.link.1.kind remark.element).isNumber) := by
  constructor
  · obtain ⟨v,τ,hv⟩ := run_ok (r := decode (Setup.plain replacedBytes) (bytesState #[]))
      (by decide +kernel)
    have hempty : (decode (Setup.plain replacedBytes) (bytesState #[])).2.history.isEmpty := by
      decide +kernel
    have hroot : (decode (Setup.plain replacedBytes) (bytesState #[])).1.toOption.any
        (Value.isRecorded replacedBytes.link.1) := by decide +kernel
    rw [hv] at hempty hroot
    have hhistory : τ.history = [] := List.isEmpty_iff.mp hempty
    have hrecorded : v.isRecorded replacedBytes.link.1 := hroot
    refine ⟨Grammar.resolve_sound (by decide +kernel),v,τ,hv,hrecorded,hhistory,fun h => ?_⟩
    rw [hhistory, recorded_eq, if_pos hrecorded] at h
    cases h
  · obtain ⟨v,τ,hv⟩ := run_ok (r := decode (Setup.plain remarked) (bytesState #[1, 7]))
      (by decide +kernel)
    have hleaves : (decode (Setup.plain remarked) (bytesState #[1, 7])).1.toOption.map
        (fun v => v.leaves.map Value.element) = some [3, 4, 5] := by decide +kernel
    rw [hv] at hleaves
    obtain ⟨n,rest,hn,-,hrest⟩ := List.map_eq_cons_iff.mp (Option.some.inj hleaves)
    obtain ⟨remark,rest,rfl,hremark,hlast⟩ := List.map_eq_cons_iff.mp hrest
    obtain ⟨body,rfl,hbody⟩ := List.map_eq_singleton_iff.mp hlast
    have hname : (remarked.link.1.element 4).name = "n" := by decide +kernel
    refine ⟨Grammar.resolve_sound (by decide +kernel),v,τ,n,remark,body,hv,hn,?_,?_,?_,?_,?_⟩
    · rw [hbody]
      decide +kernel
    · rw [hbody]
      decide +kernel
    · rw [hbody]
      decide +kernel
    · rw [latest?, List.find?_cons_of_pos]
      rw [hremark, hname]
      rfl
    · rw [hremark]
      decide +kernel

end ByteGrammar
