import ByteGrammar.Proofs.Decode.State
import ByteGrammar.Resolved.Check

/-!
# What reading a leaf comes to

Every reader of leaves that succeeds returns a value without children that begins at the cursor,
ends within the frame and has the cursor behind it. Where the element needs a length, the value
has the one declared.
-/

set_option autoImplicit false

namespace ByteGrammar

open Stepwise DecodeM Source

variable {μ : Type} {setup : Setup μ} {frame : Frame} {id : ElementId} {declared : Option Nat}
  {s t : State μ} {v : Value}

theorem required_length_ok {n : Nat} (h : requiredLength setup id declared s = (.ok n,t)) :
    declared = some n ∧ s = t := by
  cases declared <;> cases h
  exact ⟨rfl,rfl⟩

theorem integer_length_ok {n : Nat} (h : integerLength setup id declared s = (.ok n,t)) :
    declared = some n ∧ s = t := by
  obtain ⟨k,u,hk,hu⟩ := bind_ok.mp h
  obtain ⟨rfl,rfl⟩ := required_length_ok hk
  split at hu
  · cases hu
  · cases hu
    exact ⟨rfl,rfl⟩

theorem claim_ok {wanted start : Nat} (h : claim setup frame id wanted s = (.ok start,t)) :
    s = t ∧ start = s.source.position ∧ wanted ≤ frame.finish - start := by
  obtain ⟨place,u,hp,hu⟩ := bind_ok.mp h
  cases hp
  split at hu
  · next hw =>
    cases hu
    exact ⟨rfl,rfl,hw⟩
  · split at hu <;> cases hu

theorem order_of_ok {endian : Endian} {order : ByteOrder}
    (h : orderOf endian s = (.ok order,t)) : s = t := by
  cases endian <;> cases h <;> rfl

theorem match_fixed_ok {α : Type} {values : List (Fixed α)} {isMatch : α → Bool}
    {content : String} {shown : α → String} {w : Value}
    (h : matchFixed setup values isMatch content shown v s = (.ok w,t)) :
    s = t ∧ ∃ matched, w = { v with matched } := by
  unfold matchFixed at h
  by_cases he : values.isEmpty
  · rw [if_pos he] at h
    cases h
    exact ⟨rfl,v.matched,by cases v; rfl⟩
  · rw [if_neg he] at h
    cases hf : values.findIdx? fun fixed => isMatch fixed.value with
    | some i =>
      rw [hf] at h
      cases h
      exact ⟨rfl,some i,rfl⟩
    | none =>
      rw [hf] at h
      dsimp only at h
      split at h
      · cases h
      · cases h
        exact ⟨rfl,v.matched,by cases v; rfl⟩

structure LeafRead (setup : Setup μ) (frame : Frame) (id : ElementId) (declared : Option Nat)
    (s : State μ) (v : Value) (t : State μ) : Prop where
  element : v.element = id
  offset : v.offset = s.source.position
  children : v.children = []
  inside : v.finish ≤ max v.offset frame.finish
  position : t.source.position = v.finish
  declared : setup.grammar.needsLength id → declared = some v.length

theorem leaf_read_of_span {n : Nat} (hv : v.element = id ∧ v.offset = s.source.position ∧
      v.length = n ∧ v.children = [])
    (hw : n ≤ frame.finish - s.source.position)
    (hd : setup.grammar.needsLength id → declared = some n)
    (hp : t.source.position = s.source.position + n) :
    LeafRead setup frame id declared s v t := by
  obtain ⟨he,ho,hl,hc⟩ := hv
  have hf : v.finish = s.source.position + n := by rw [Value.finish, ho, hl]
  refine ⟨he,ho,hc,?_,hp.trans hf.symm,fun h => hl ▸ hd h⟩
  rw [hf, ho]
  omega

theorem read_number_ok (h : readNumber setup frame id declared s = (.ok v,t)) :
    LeafRead setup frame id declared s v t := by
  obtain ⟨n,_,hn,h1⟩ := bind_ok.mp h
  obtain ⟨hd,rfl⟩ := integer_length_ok hn
  obtain ⟨start,_,hc,h2⟩ := bind_ok.mp h1
  obtain ⟨rfl,rfl,hw⟩ := claim_ok hc
  obtain ⟨bytes,u,ht,h3⟩ := bind_ok.mp h2
  obtain ⟨order,_,ho,h4⟩ := bind_ok.mp h3
  obtain rfl := order_of_ok ho
  rcases hm : MachineInt.ofBytes? order (setup.grammar.attributesOf id).signed bytes with _ | i <;>
    rw [hm] at h4
  · cases h4
  · obtain ⟨rfl,matched,rfl⟩ := match_fixed_ok h4
    exact leaf_read_of_span ⟨rfl,rfl,rfl,rfl⟩ hw (fun _ => hd) (take_ok ht).2.2

theorem read_offset_ok (h : readOffset setup frame id declared s = (.ok v,t)) :
    LeafRead setup frame id declared s v t := by
  obtain ⟨n,_,hn,h1⟩ := bind_ok.mp h
  obtain ⟨hd,rfl⟩ := integer_length_ok hn
  obtain ⟨start,_,hc,h2⟩ := bind_ok.mp h1
  obtain ⟨rfl,rfl,hw⟩ := claim_ok hc
  obtain ⟨_,_,hs,h3⟩ := bind_ok.mp h2
  obtain rfl := seek_ok hs
  obtain ⟨order,_,ho,h4⟩ := bind_ok.mp h3
  obtain rfl := order_of_ok ho
  cases h4
  exact leaf_read_of_span ⟨rfl,rfl,rfl,rfl⟩ hw (fun _ => hd) rfl

theorem read_binary_ok (h : readBinary setup frame id declared s = (.ok v,t)) :
    LeafRead setup frame id declared s v t := by
  obtain ⟨n,_,hn,h1⟩ := bind_ok.mp h
  obtain ⟨hd,rfl⟩ := required_length_ok hn
  obtain ⟨start,_,hc,h2⟩ := bind_ok.mp h1
  obtain ⟨rfl,rfl,hw⟩ := claim_ok hc
  split at h2
  · cases h2
    exact leaf_read_of_span ⟨rfl,rfl,rfl,rfl⟩ hw (fun _ => hd) rfl
  · obtain ⟨bytes,u,ht,h3⟩ := bind_ok.mp h2
    obtain ⟨rfl,matched,rfl⟩ := match_fixed_ok h3
    exact leaf_read_of_span ⟨rfl,rfl,rfl,rfl⟩ hw (fun _ => hd) (take_ok ht).2.2

theorem read_custom_ok (h : readCustom setup frame id declared s = (.ok v,t)) :
    LeafRead setup frame id declared s v t := by
  obtain ⟨n,_,hn,h1⟩ := bind_ok.mp h
  obtain ⟨hd,rfl⟩ := required_length_ok hn
  obtain ⟨start,_,hc,h2⟩ := bind_ok.mp h1
  obtain ⟨rfl,rfl,hw⟩ := claim_ok hc
  obtain ⟨_,_,hs,h3⟩ := bind_ok.mp h2
  obtain rfl := seek_ok hs
  split at h3
  · obtain ⟨_,u,hr,h4⟩ := bind_ok.mp h3
    obtain ⟨_,_,hs,h5⟩ := bind_ok.mp h4
    obtain rfl := seek_ok hs
    cases h5
    exact leaf_read_of_span ⟨rfl,rfl,rfl,rfl⟩ hw (fun _ => hd) rfl
  · cases h3
    exact leaf_read_of_span ⟨rfl,rfl,rfl,rfl⟩ hw (fun _ => hd) rfl

theorem read_script_ok (hg : setup.grammar.needsLength id = false)
    (h : readScript setup id s = (.ok v,t)) : LeafRead setup frame id declared s v t := by
  obtain ⟨start,_,hc,h1⟩ := bind_ok.mp h
  obtain ⟨rfl,rfl⟩ := cursor_ok hc
  obtain ⟨_,u,hr,h2⟩ := bind_ok.mp h1
  obtain ⟨_,_,hs,h3⟩ := bind_ok.mp h2
  obtain rfl := seek_ok hs
  cases h3
  exact leaf_read_of_span ⟨rfl,rfl,rfl,rfl⟩ (Nat.zero_le _) (fun h => by simp_all) rfl

theorem up_to_length {delimiter : UInt8} {bytes found : List UInt8}
    (h : upTo? delimiter bytes = some found) : found.length ≤ bytes.length := by
  induction bytes generalizing found with
  | nil => cases h
  | cons b rest ih =>
    rw [upTo?] at h
    split at h
    · cases h
      simp
    · obtain ⟨more,hm,rfl⟩ := Option.map_eq_some_iff.mp h
      have hlen := ih hm
      simp only [List.length_cons]
      omega

theorem scan_length {delimiter : UInt8} {rest strides : Nat} {found : List UInt8}
    (h : scan delimiter rest strides s = (.ok (some found),t)) :
    found.length ≤ rest + strides * stride := by
  induction strides generalizing s t found with
  | zero =>
    rw [scan] at h
    split at h
    · cases h
    · obtain ⟨bytes,u,ht,h1⟩ := bind_ok.mp h
      obtain ⟨hu,-⟩ := pure_ok.mp h1
      have hlen := up_to_length hu
      rw [(take_ok ht).1] at hlen
      omega
  | succ strides ih =>
    rw [scan] at h
    obtain ⟨bytes,u,ht,h1⟩ := bind_ok.mp h
    have hbytes := (take_ok ht).1
    rcases hu : upTo? delimiter bytes with _ | first <;> rw [hu] at h1
    · obtain ⟨more,w,hm,h2⟩ := bind_ok.mp h1
      obtain ⟨hmap,-⟩ := pure_ok.mp h2
      obtain ⟨tail,rfl,rfl⟩ := Option.map_eq_some_iff.mp hmap
      have hlen := ih hm
      rw [List.length_append, hbytes, Nat.succ_mul]
      omega
    · cases h1
      have hlen := up_to_length hu
      rw [Nat.succ_mul]
      omega

theorem read_delimited_ok {delimiter : UInt8} {bytes : List UInt8}
    (h : readDelimited setup frame id delimiter s = (.ok bytes,t)) :
    bytes.length ≤ frame.finish - s.source.position ∧
      t.source.position = s.source.position + bytes.length := by
  obtain ⟨start,_,hc,h1⟩ := bind_ok.mp h
  obtain ⟨rfl,rfl⟩ := cursor_ok hc
  dsimp only at h1
  split at h1
  · cases h1
  · obtain ⟨found,u,hf,h2⟩ := bind_ok.mp h1
    cases found with
    | none => cases h2
    | some found =>
      obtain ⟨_,_,hs,h3⟩ := bind_ok.mp h2
      obtain rfl := seek_ok hs
      cases h3
      have hlen := scan_length hf
      rw [Nat.mod_add_div'] at hlen
      exact ⟨hlen,rfl⟩

theorem read_counted_ok {bytes : List UInt8}
    (h : readCounted setup frame id s = (.ok bytes,t)) :
    bytes.length ≤ frame.finish - s.source.position ∧
      t.source.position = s.source.position + bytes.length := by
  obtain ⟨start,_,hc,h1⟩ := bind_ok.mp h
  obtain ⟨rfl,rfl,hw⟩ := claim_ok hc
  obtain ⟨head,u,hh,h2⟩ := bind_ok.mp h1
  dsimp only at h2
  split at h2
  · cases h2
  · next ha =>
    obtain ⟨more,w,hm,h3⟩ := bind_ok.mp h2
    obtain ⟨rfl,rfl⟩ := pure_ok.mp h3
    obtain ⟨hlen,-,hpos⟩ := take_ok hh
    obtain ⟨hlen',-,hpos'⟩ := take_ok hm
    simp only [Frame.available] at ha
    rw [List.length_append]
    omega

def readTextBytes (setup : Setup μ) (frame : Frame) (id : ElementId) (declared : Option Nat) :
    DecodeM μ (List UInt8) :=
  match (setup.grammar.attributesOf id).textKind with
  | .zeroTerminated => readDelimited setup frame id 0
  | .delimited delimiter => readDelimited setup frame id delimiter
  | .fixedLength => do
    let length ← requiredLength setup id declared
    discard (claim setup frame id length)
    take length
  | .counted => readCounted setup frame id

theorem read_text_eq (setup : Setup μ) (frame : Frame) (id : ElementId) (declared : Option Nat) :
    readText setup frame id declared =
      cursor >>= fun start => readTextBytes setup frame id declared >>= fun bytes =>
        matchFixed setup (setup.grammar.textValues id)
          (· == (setup.grammar.attributesOf id).textOf setup.encodings bytes)
          ((setup.grammar.attributesOf id).textOf setup.encodings bytes) (fun value => value)
          (Value.leaf id start bytes.length) := by
  unfold readText readTextBytes
  dsimp only
  cases (setup.grammar.attributesOf id).textKind with
  | fixedLength => simp only [bind_assoc]
  | _ => rfl

theorem read_text_bytes_ok {bytes : List UInt8}
    (h : readTextBytes setup frame id declared s = (.ok bytes,t)) :
    bytes.length ≤ frame.finish - s.source.position ∧
      t.source.position = s.source.position + bytes.length ∧
      ((setup.grammar.attributesOf id).textKind = .fixedLength →
        declared = some bytes.length) := by
  unfold readTextBytes at h
  cases hk : (setup.grammar.attributesOf id).textKind with
  | zeroTerminated =>
    rw [hk] at h
    obtain ⟨hw,hp⟩ := read_delimited_ok h
    exact ⟨hw,hp,nofun⟩
  | delimited delimiter =>
    rw [hk] at h
    obtain ⟨hw,hp⟩ := read_delimited_ok h
    exact ⟨hw,hp,nofun⟩
  | counted =>
    rw [hk] at h
    obtain ⟨hw,hp⟩ := read_counted_ok h
    exact ⟨hw,hp,nofun⟩
  | fixedLength =>
    rw [hk] at h
    obtain ⟨n,_,hn,h1⟩ := bind_ok.mp h
    obtain ⟨hd,rfl⟩ := required_length_ok hn
    obtain ⟨_,u,hc,h2⟩ := bind_ok.mp h1
    obtain ⟨start,w,hs,hu⟩ := bind_ok.mp hc
    obtain ⟨rfl,rfl,hw⟩ := claim_ok hs
    cases hu
    obtain ⟨rfl,-,hp⟩ := take_ok h2
    exact ⟨hw,hp,fun _ => hd⟩

theorem read_text_ok {settings : TextSettings} (hg : setup.grammar.kind id = .text settings)
    (h : readText setup frame id declared s = (.ok v,t)) :
    LeafRead setup frame id declared s v t := by
  have hneeds : setup.grammar.needsLength id =
      ((setup.grammar.attributesOf id).textKind == .fixedLength) := by
    simp only [Resolved.needsLength, hg]
  rw [read_text_eq] at h
  obtain ⟨start,_,hc,h1⟩ := bind_ok.mp h
  obtain ⟨rfl,rfl⟩ := cursor_ok hc
  obtain ⟨bytes,u,hb,h2⟩ := bind_ok.mp h1
  obtain ⟨hw,hp,hd⟩ := read_text_bytes_ok hb
  obtain ⟨rfl,matched,rfl⟩ := match_fixed_ok h2
  refine leaf_read_of_span ⟨rfl,rfl,rfl,rfl⟩ hw (fun h => ?_) hp
  rw [hneeds, beq_iff_eq] at h
  exact hd h

section
variable {R : State μ → State μ → Prop}

section
variable [Lasting R]

theorem required_length_keeps (setup : Setup μ) (id : ElementId) (declared : Option Nat) :
    Keeps R (requiredLength setup id declared) := by
  cases declared with
  | none => exact throw_keeps _
  | some n => exact pure_keeps n

theorem integer_length_keeps (setup : Setup μ) (id : ElementId) (declared : Option Nat) :
    Keeps R (integerLength setup id declared) := by
  refine bind_keeps (required_length_keeps setup id declared) fun n => ?_
  split
  · exact throw_keeps _
  · exact pure_keeps _

theorem claim_keeps (setup : Setup μ) (frame : Frame) (id : ElementId) (wanted : Nat) :
    Keeps R (claim setup frame id wanted) := by
  refine bind_keeps cursor_keeps fun start => ?_
  dsimp only
  split
  · exact pure_keeps _
  · split <;> exact throw_keeps _

theorem match_fixed_keeps {α : Type} (setup : Setup μ) (values : List (Fixed α))
    (isMatch : α → Bool) (content : String) (shown : α → String) (v : Value) :
    Keeps R (matchFixed setup values isMatch content shown v) := by
  unfold matchFixed
  split
  · exact pure_keeps _
  · split
    · exact pure_keeps _
    · split
      · exact throw_keeps _
      · exact pure_keeps _

end

section
variable [State.Reading R]

theorem read_number_keeps (setup : Setup μ) (frame : Frame) (id : ElementId)
    (declared : Option Nat) : Keeps R (readNumber setup frame id declared) := by
  refine bind_keeps (integer_length_keeps _ _ _) fun n => ?_
  refine bind_keeps (claim_keeps _ _ _ _) fun start => ?_
  refine bind_keeps (take_keeps _) fun bytes => ?_
  refine bind_keeps (order_of_keeps _) fun order => ?_
  split
  · exact throw_keeps _
  · exact match_fixed_keeps _ _ _ _ _ _

theorem read_offset_keeps (setup : Setup μ) (frame : Frame) (id : ElementId)
    (declared : Option Nat) : Keeps R (readOffset setup frame id declared) := by
  refine bind_keeps (integer_length_keeps _ _ _) fun n => ?_
  refine bind_keeps (claim_keeps _ _ _ _) fun start => ?_
  refine bind_keeps (seek_keeps _) fun _ => ?_
  exact bind_keeps (order_of_keeps _) fun order => pure_keeps _

theorem read_binary_keeps (setup : Setup μ) (frame : Frame) (id : ElementId)
    (declared : Option Nat) : Keeps R (readBinary setup frame id declared) := by
  refine bind_keeps (required_length_keeps _ _ _) fun n => ?_
  refine bind_keeps (claim_keeps _ _ _ _) fun start => ?_
  dsimp only
  split
  · exact bind_keeps (seek_keeps _) fun _ => pure_keeps _
  · exact bind_keeps (take_keeps _) fun bytes => match_fixed_keeps _ _ _ _ _ _

theorem scan_keeps (delimiter : UInt8) (rest strides : Nat) :
    Keeps R (scan delimiter rest strides : DecodeM μ _) := by
  induction strides with
  | zero =>
    rw [scan]
    split
    · exact pure_keeps _
    · exact bind_keeps (take_keeps rest) fun bytes => pure_keeps _
  | succ strides ih =>
    rw [scan]
    refine bind_keeps (take_keeps stride) fun bytes => ?_
    split
    · exact pure_keeps _
    · exact bind_keeps ih fun more => pure_keeps _

theorem read_delimited_keeps (setup : Setup μ) (frame : Frame) (id : ElementId)
    (delimiter : UInt8) : Keeps R (readDelimited setup frame id delimiter) := by
  refine bind_keeps cursor_keeps fun start => ?_
  dsimp only
  split
  · exact throw_keeps _
  · refine bind_keeps (scan_keeps _ _ _) fun found => ?_
    cases found with
    | none => exact throw_keeps _
    | some bytes => exact bind_keeps (seek_keeps _) fun _ => pure_keeps _

theorem read_counted_keeps (setup : Setup μ) (frame : Frame) (id : ElementId) :
    Keeps R (readCounted setup frame id) := by
  refine bind_keeps (claim_keeps _ _ _ _) fun start => ?_
  refine bind_keeps (take_keeps _) fun head => ?_
  dsimp only
  split
  · exact throw_keeps _
  · exact bind_keeps (take_keeps _) fun more => pure_keeps _

theorem read_text_keeps (setup : Setup μ) (frame : Frame) (id : ElementId)
    (declared : Option Nat) : Keeps R (readText setup frame id declared) := by
  rw [read_text_eq]
  refine bind_keeps cursor_keeps fun start => ?_
  refine bind_keeps ?_ fun bytes => match_fixed_keeps _ _ _ _ _ _
  unfold readTextBytes
  cases (setup.grammar.attributesOf id).textKind with
  | zeroTerminated => exact read_delimited_keeps _ _ _ _
  | delimited delimiter => exact read_delimited_keeps _ _ _ _
  | counted => exact read_counted_keeps _ _ _
  | fixedLength =>
    refine bind_keeps (required_length_keeps _ _ _) fun n => ?_
    exact bind_keeps (map_keeps _ (claim_keeps _ _ _ _)) fun _ => take_keeps _

end

end

theorem run_script_kept (setup : Setup μ) (id : ElementId) (current : Option Value) :
    Keeps State.Kept (runScript setup id current) := by
  unfold runScript
  dsimp only
  cases setup.grammar.script? id with
  | none => exact throw_keeps _
  | some script =>
    cases setup.runtime with
    | none => exact fun s => (State.noted_quiet s _).kept
    | some runtime =>
      refine bind_keeps cursor_keeps fun offset s => ?_
      have hr := Program.run_still setup.grammar
        (runtime.run script ⟨setup.grammar,id,s.history,current⟩ s.memory) s.source s.order
      simp only [bind_run, get_run, set_run]
      generalize Program.run setup.grammar
        (runtime.run script ⟨setup.grammar,id,s.history,current⟩ s.memory) s.source s.order = r at *
      rcases r with ⟨⟨result | reason, memory⟩, source, order⟩
      · exact ⟨hr.toFollows,rfl,rfl⟩
      · exact ⟨hr.toFollows,rfl,rfl⟩

section
variable {R : State μ → State μ → Prop} [State.Reading R]

theorem read_custom_keeps {id : ElementId}
    (hs : ∀ current, Keeps R (runScript setup id current)) (frame : Frame)
    (declared : Option Nat) : Keeps R (readCustom setup frame id declared) := by
  refine bind_keeps (required_length_keeps _ _ _) fun n => ?_
  refine bind_keeps (claim_keeps _ _ _ _) fun start => ?_
  refine bind_keeps (seek_keeps _) fun _ => ?_
  dsimp only
  split
  · refine bind_keeps (hs _) fun _ => ?_
    exact bind_keeps (seek_keeps _) fun _ => pure_keeps _
  · exact pure_keeps _

theorem read_script_keeps {id : ElementId} (hs : Keeps R (runScript setup id none)) :
    Keeps R (readScript setup id) := by
  refine bind_keeps cursor_keeps fun start => ?_
  refine bind_keeps hs fun _ => ?_
  exact bind_keeps (seek_keeps _) fun _ => pure_keeps _

end

theorem read_custom_kept (setup : Setup μ) (frame : Frame) (id : ElementId)
    (declared : Option Nat) : Keeps State.Kept (readCustom setup frame id declared) :=
  read_custom_keeps (run_script_kept setup id) frame declared

theorem read_script_kept (setup : Setup μ) (id : ElementId) :
    Keeps State.Kept (readScript setup id) := read_script_keeps (run_script_kept setup id none)

end ByteGrammar
