import ByteGrammar.Proofs.Decode.Ordinary
import ByteGrammar.Proofs.Decode.Shape
import ByteGrammar.Proofs.Resolved.Ready

/-!
# The faults of a decode

Some faults tell of no data but of a broken rule: a length or a target that is not there, or a
value without the shape of a decoded tree. A grammar that only grew and that resolves leaves no
room for them.
-/

set_option autoImplicit false

namespace ByteGrammar

open Stepwise DecodeM Source

variable {μ α : Type}

/-- Whether the fault is none of the data, but of the grammar or the decoder. -/
def DecodeFault.isInternal : DecodeFault → Bool
  | missingLength _ | breach _ => true
  | _ => false

def OfData (fault : DecodeFault) : Prop := fault.isInternal = false

instance : Admits OfData where
  ordinary {fault} h := by
    cases fault <;> simp [DecodeFault.isOrdinary, OfData, DecodeFault.isInternal] at h ⊢

section
variable {setup : Setup μ} {frame : Frame} {frames : List Frame} {id : ElementId}
  {declared : Option Nat}

theorem take_faults (count : Nat) : Faults OfData (take count : DecodeM μ (List UInt8)) := by
  intro s e t h
  rw [take_run] at h
  rcases hr : Source.read count s.source with ⟨fault | bytes, source⟩ <;> rw [hr] at h
  · cases h
    cases fault <;> rfl
  · cases h

theorem declared_not_missing (h : declared.isSome) (hnone : declared = none) :
    OfData (.missingLength (setup.grammar.label id)) := by
  rw [hnone] at h
  cases h

theorem read_number_faults (h : declared.isSome) :
    Faults OfData (readNumber setup frame id declared) := by
  refine bind_faults (integer_length_faults (declared_not_missing h)) fun n => ?_
  refine bind_faults (claim_faults (by rfl) _ _ _ _) fun start => ?_
  refine bind_faults (take_faults _) fun bytes => ?_
  refine bind_faults (order_of_faults _) fun order => ?_
  split
  · exact throw_faults rfl
  · exact match_fixed_faults _ _ _ _ _ _

theorem read_offset_faults (h : declared.isSome) :
    Faults OfData (readOffset setup frame id declared) := by
  refine bind_faults (integer_length_faults (declared_not_missing h)) fun n => ?_
  refine bind_faults (claim_faults (by rfl) _ _ _ _) fun start => ?_
  refine bind_faults (seek_faults _) fun _ => ?_
  exact bind_faults (order_of_faults _) fun order => pure_faults _

theorem read_binary_faults (h : declared.isSome) :
    Faults OfData (readBinary setup frame id declared) := by
  refine bind_faults (required_length_faults (declared_not_missing h)) fun n => ?_
  refine bind_faults (claim_faults (by rfl) _ _ _ _) fun start => ?_
  dsimp only
  split
  · exact bind_faults (seek_faults _) fun _ => pure_faults _
  · exact bind_faults (take_faults _) fun bytes => match_fixed_faults _ _ _ _ _ _

theorem scan_faults (delimiter : UInt8) (rest strides : Nat) :
    Faults OfData (scan delimiter rest strides : DecodeM μ _) := by
  induction strides with
  | zero =>
    rw [scan]
    split
    · exact pure_faults _
    · exact bind_faults (take_faults rest) fun bytes => pure_faults _
  | succ strides ih =>
    rw [scan]
    refine bind_faults (take_faults stride) fun bytes => ?_
    split
    · exact pure_faults _
    · exact bind_faults ih fun more => pure_faults _

theorem read_delimited_faults (setup : Setup μ) (frame : Frame) (id : ElementId)
    (delimiter : UInt8) : Faults OfData (readDelimited setup frame id delimiter) := by
  refine bind_faults cursor_faults fun start => ?_
  dsimp only
  split
  · exact throw_bind_faults (by rfl) _
  · apply bind_faults (scan_faults _ _ _) fun found => ?_
    cases found with
    | none => exact throw_faults rfl
    | some bytes => exact bind_faults (seek_faults _) fun _ => pure_faults _

theorem read_counted_faults (setup : Setup μ) (frame : Frame) (id : ElementId) :
    Faults OfData (readCounted setup frame id) := by
  refine bind_faults (claim_faults (by rfl) _ _ _ _) fun start => ?_
  refine bind_faults (take_faults _) fun head => ?_
  dsimp only
  split
  · exact throw_bind_faults (by rfl) _
  · exact bind_faults (take_faults _) fun more => pure_faults _

theorem read_text_faults
    (h : (setup.grammar.attributesOf id).textKind = .fixedLength → declared.isSome) :
    Faults OfData (readText setup frame id declared) := by
  rw [read_text_eq]
  refine bind_faults cursor_faults fun start => ?_
  refine bind_faults ?_ fun bytes => match_fixed_faults _ _ _ _ _ _
  unfold readTextBytes
  cases hk : (setup.grammar.attributesOf id).textKind with
  | zeroTerminated => exact read_delimited_faults _ _ _ _
  | delimited delimiter => exact read_delimited_faults _ _ _ _
  | counted => exact read_counted_faults _ _ _
  | fixedLength =>
    refine bind_faults (required_length_faults (declared_not_missing (h hk))) fun n => ?_
    exact bind_faults (map_faults _ (claim_faults (by rfl) _ _ _ _)) fun _ => take_faults _

theorem script_not_absent (h : (setup.grammar.script? id).isSome)
    (hnone : setup.grammar.script? id = none) :
    OfData (.breach (.noScript (setup.grammar.label id))) := by
  rw [hnone] at h
  cases h

theorem read_custom_faults (hd : declared.isSome)
    (hs : (setup.grammar.attributesOf id).target.isSome → (setup.grammar.script? id).isSome) :
    Faults OfData (readCustom setup frame id declared) := by
  refine bind_faults (required_length_faults (declared_not_missing hd)) fun n => ?_
  refine bind_faults (claim_faults (by rfl) _ _ _ _) fun start => ?_
  refine bind_faults (seek_faults _) fun _ => ?_
  dsimp only
  split
  · next ht =>
    refine bind_faults (run_script_faults (script_not_absent (hs ht))
      (fun _ _ _ => by rfl) _) fun _ => ?_
    exact bind_faults (seek_faults _) fun _ => pure_faults _
  · exact pure_faults _

theorem read_script_faults (h : (setup.grammar.script? id).isSome) :
    Faults OfData (readScript setup id) := by
  refine bind_faults cursor_faults fun start => ?_
  refine bind_faults (run_script_faults (script_not_absent h) (fun _ _ _ => by rfl) _) fun _ => ?_
  exact bind_faults (seek_faults _) fun _ => pure_faults _

theorem read_struct_faults {attempt : ElementId → DecodeM μ Value}
    (ha : ∀ member ∈ setup.grammar.membersOf id, Faults OfData (attempt member)) :
    Faults OfData (readStruct setup attempt frame frames id declared) := by
  have hsteps : Faults OfData (searchSteps setup (setup.grammar.membersOf id).toArray) :=
    bind_faults get_faults fun _ => pure_faults _
  refine bind_faults hsteps fun steps => ?_
  have hmembers : ∀ member ∈ (setup.grammar.membersOf id).toArray,
      Faults (fun fault => fault.isEof = false → OfData fault) (attempt member) :=
    fun member hm s e t h _ => ha member (List.mem_toArray.mp hm) s e t h
  refine bind_faults (search_faults (by rfl) hmembers _ _ _ _ _) fun found => ?_
  exact finish_struct_faults (fun _ _ => by rfl) (fun _ => by rfl) _ _ _ _

/-- An element that is ready is read without internal faults, if what is inside of it is. -/
theorem read_kind_faults {A : ElementId → Prop} (hg : setup.grammar.ReadyAll A) (hid : A id)
    {attempt : ElementId → DecodeM μ Value} (ha : ∀ {id}, A id → Faults OfData (attempt id))
    (hd : (setup.grammar.attributesOf id).length.isSome → declared.isSome) :
    Faults OfData (readKind setup attempt frame frames id declared) := by
  have hready := hg.ready hid
  have hlength : setup.grammar.needsLength id → declared.isSome := fun h => hd (hready.length h)
  unfold readKind
  cases hk : setup.grammar.kind id with
  | grammar =>
    have hdecodable := hready.kind
    rw [hk] at hdecodable
    cases hdecodable
  | padding =>
    have hdecodable := hready.kind
    rw [hk] at hdecodable
    cases hdecodable
  | struct settings => exact read_struct_faults fun member hm => ha (hg.members hid hm)
  | structRef link =>
    dsimp only
    unfold readReference
    have htarget := hready.target hk
    cases ht : (setup.grammar.attributesOf id).target with
    | none =>
      rw [ht] at htarget
      cases htarget
    | some target => exact bind_faults (ha (hg.target hid hk ht)) fun w => pure_faults _
  | number settings => exact read_number_faults (hlength (by simp [Resolved.needsLength, hk]))
  | binary settings => exact read_binary_faults (hlength (by simp [Resolved.needsLength, hk]))
  | offset settings => exact read_offset_faults (hlength (by simp [Resolved.needsLength, hk]))
  | text settings =>
    exact read_text_faults fun h => hlength (by simp [Resolved.needsLength, hk, h])
  | custom script =>
    exact read_custom_faults (hlength (by simp [Resolved.needsLength, hk]))
      fun h => hready.script (by simp [Resolved.runsScript, hk, h])
  | script script =>
    exact read_script_faults (hready.script (by simp [Resolved.runsScript, hk]))
  | scriptElement script =>
    exact read_script_faults (hready.script (by simp [Resolved.runsScript, hk]))
  | grammarRef file => exact throw_faults rfl

theorem read_with_faults {A : ElementId → Prop} (hg : setup.grammar.ReadyAll A)
    (hcheck : setup.options.checkShape = false) (hid : A id)
    {attempt : List Frame → ElementId → DecodeM μ Value}
    (ha : ∀ {frames id}, A id → Faults OfData (attempt frames id)) :
    Faults OfData (readWith setup attempt frames id) := by
  refine bind_faults cursor_faults fun start => ?_
  refine bind_faults (limit_of_faults _) fun limit => ?_
  refine bind_faults_ok (byte_length_faults _ _ _) fun {s declared t} hlength => ?_
  have hdeclared : (setup.grammar.attributesOf id).length.isSome → declared.isSome := by
    intro hsome
    obtain ⟨q,hq⟩ := Option.isSome_iff_exists.mp hsome
    obtain ⟨-,-,bytes,-,-,rfl⟩ := byte_length_ok hq hlength
    rfl
  refine bind_faults (log_faults _) fun _ => ?_
  refine outcome_bind_faults (read_kind_faults hg hid ha hdeclared) fun result hresult => ?_
  cases result with
  | error fault => exact bind_faults (log_faults _) fun _ => throw_faults (hresult fault rfl)
  | ok v =>
    refine bind_faults (log_faults _) fun _ => ?_
    refine bind_faults ?_ fun _ => ?_
    · simp only [checkRead, hcheck]
      exact pure_faults _
    · exact bind_faults (record_value_faults (by rfl) _ _) fun _ => pure_faults _

theorem read_element_faults {A : ElementId → Prop} (hg : setup.grammar.ReadyAll A)
    (hcheck : setup.options.checkShape = false) (hid : A id) (room : Nat) :
    Faults OfData (readElement setup room frames id) := by
  induction room generalizing frames id with
  | zero => exact throw_faults rfl
  | succ room ih => exact read_with_faults hg hcheck hid ih

theorem repeat_start_faults {attempt : DecodeM μ Value} (ha : Faults OfData attempt)
    (least : Nat) (most : Option Nat) (length rounds : Nat) (children : Array Value)
    (consumed : Nat) :
    Faults OfData (repeatStart setup attempt least most length rounds children consumed) := by
  induction rounds generalizing children consumed with
  | zero => exact pure_faults _
  | succ rounds ih =>
    rw [repeatStart]
    split
    · exact pure_faults _
    · refine bind_faults (seek_faults _) fun _ => ?_
      refine bind_faults get_faults fun σ => ?_
      refine outcome_bind_faults ha fun result hresult => ?_
      cases result with
      | error fault => exact stop_after_faults least _ _ _ (hresult fault rfl)
      | ok v =>
        dsimp only
        split
        · exact pure_faults _
        · exact ih _ _

theorem read_root_faults {A : ElementId → Prop} (hg : setup.grammar.ReadyAll A)
    (hcheck : setup.options.checkShape = false) (hstart : A setup.grammar.start)
    (length : Nat) : Faults OfData (readRoot setup length) := by
  refine bind_faults (bound_faults _ _ _ _ _) fun least => ?_
  refine bind_faults (bound_faults _ _ _ _ _) fun most => ?_
  refine bind_faults (repeat_start_faults (read_element_faults hg hcheck hstart _) _ _ _ _ _ _)
    fun found => ?_
  dsimp only
  split
  · split <;> exact throw_bind_faults (by rfl) _
  · exact bind_faults (seek_faults _) fun _ => pure_faults _

theorem decode_faults {A : ElementId → Prop} (hg : setup.grammar.ReadyAll A)
    (hcheck : setup.options.checkShape = false) (hstart : A setup.grammar.start) :
    Faults OfData (decode setup) := by
  have hpass : ∀ v, Faults OfData (checkRoot setup v) := by
    intro v
    simp only [checkRoot, hcheck]
    exact pure_faults v
  intro s e t h
  rw [decode_eq] at h
  exact bind_faults (read_root_faults hg hcheck hstart _) hpass _ e t h

end

/-- Grammars that resolve do not go wrong. Where a grammar only grew, all its elements can be
decoded once their links lead somewhere, and its start is one of them, no decode ever ends because
of a missing length or a broken rule, whether values are checked as they are read or not. -/
theorem resolved_goes_right {authored : Grammar} {setup : Setup μ} (hgrown : authored.Grown)
    (hplain : ∀ id, authored.Added id → (authored.element id).kind.isPlain)
    (hg : authored.resolve = .ok setup.grammar) (hstart : authored.Added setup.grammar.start)
    (σ : State μ) :
    (∀ fault τ, decode setup σ = (.error fault,τ) → OfData fault) ∧
    ∀ id, authored.Added id → ∀ offset fault τ,
      decodeElement setup id offset σ = (.error fault,τ) → OfData fault := by
  have hl := Grammar.resolve_linked hg
  have hready : (setup.checking false).grammar.ReadyAll authored.Added :=
    Grammar.resolve_ready hgrown hplain hg
  have hroot : (setup.grammar.kind Grammar.root).isComposite := by
    rw [(Grammar.resolve_assembled hgrown.built hg).root]
    rfl
  constructor
  · intro fault τ h
    have hsame := (decode_checking hl false σ).2 fun _ _ => .inl hroot
    rw [h] at hsame
    exact decode_faults hready rfl hstart σ fault (decode (setup.checking false) σ).2
      (Prod.ext hsame rfl)
  · intro id hid offset fault τ h
    rw [← decode_element_checking hl false, decode_element_eq] at h
    exact read_element_faults hready rfl hid _ _ fault τ h

def items : Grammar :=
  let g := (Grammar.new "items").add (Element.struct "item")
  let g := (g.addChildren 1 [(Element.number "n").withLength (.literal 1),
    ((Element.custom "body").withLength (.prev "n")).withScript (.name "note"),
    Element.scriptElement "done" (some (.name "note"))]).toOption.getD g
  let g := g.add (Element.script "note" "Generic" "")
  (g.add ((Element.structRef "each" (some (.name "item"))).withMost .unlimited)).setStart
    (.name "each")

theorem items_grown : items.Grown :=
  .setStart _ (.add _ (.add _ ((Grammar.Grown.add _ (.new _)).grown 1 _)))

theorem items_go_right :
    (∃ fault τ, decode (trial items true) (bytesState #[5, 6]) = (.error fault,τ) ∧
      OfData fault) ∧
    ∃ fault τ, decodeElement (trial items true) 3 9 (bytesState #[1, 7]) = (.error fault,τ) ∧
      OfData fault := by
  have hg : items.resolve = .ok (trial items true).grammar :=
    Grammar.resolve_sound (by decide +kernel)
  have hplain : ∀ id, items.Added id → (items.element id).kind.isPlain := by
    have hall : ∀ id < items.size, 0 < id → (items.element id).kind.isPlain := by decide +kernel
    exact fun id hid => hall id hid.2 hid.1
  have hstart : items.Added (trial items true).grammar.start := by decide +kernel
  have hright := resolved_goes_right (μ := Unit) items_grown hplain hg hstart
  obtain ⟨fault,τ,h⟩ := run_fault (r := decode (trial items true) (bytesState #[5, 6]))
    (by decide +kernel)
  obtain ⟨fault',τ',h'⟩ := run_fault
    (r := decodeElement (trial items true) 3 9 (bytesState #[1, 7])) (by decide +kernel)
  exact ⟨⟨fault,τ,h,(hright _).1 fault τ h⟩,
    ⟨fault',τ',h',(hright _).2 3 (by decide +kernel) 9 fault' τ' h'⟩⟩

end ByteGrammar
