import ByteGrammar.Proofs.Decode.Shape
import ByteGrammar.Proofs.Source.Delivered

/-!
# What is read again of a decoded value

A value holds no data, so its content is worked out anew wherever it is needed: by the reader of
its element, by evaluations and scripts, and when it is rendered. Over bytes in memory they all
come to the same: a number is the integer of its bytes in the byte order that it was read in, and
what a value was matched with is the first fixed value that its content is.
-/

set_option autoImplicit false

namespace ByteGrammar

open Stepwise DecodeM Source Value

variable {μ α β ε : Type}

def Source.Gives (data : Array UInt8) (action : ExceptT ε (StateM Source) α) (a : α) : Prop :=
  ∀ s : Source, s.InMemory → s.data = data → action s = (.ok a,s)

def Value.bytesIn (data : Array UInt8) (v : Value) : List UInt8 :=
  (data.extract v.offset (v.offset + v.length)).toList

def Value.Covered (data : Array UInt8) (v : Value) : Prop := v.length = 0 ∨ v.finish ≤ data.size

section
variable {data : Array UInt8} {g : Resolved} {v : Value}

theorem pure_gives (a : α) : Gives data (pure a : ExceptT ε (StateM Source) α) a := fun _ _ _ => rfl

theorem bind_gives {action : ExceptT ε (StateM Source) α} {f : α → ExceptT ε (StateM Source) β}
    {a : α} {b : β} (h : Gives data action a) (hf : Gives data (f a) b) :
    Gives data (action >>= f) b := by
  intro s hs hdata
  rw [bind_run, h s hs hdata]
  exact hf s hs hdata

theorem map_gives {action : ExceptT ε (StateM Source) α} {a : α} (f : α → β)
    (h : Gives data action a) : Gives data (f <$> action) (f a) := by
  intro s hs hdata
  rw [map_run, h s hs hdata]

theorem covered_length (h : v.Covered data) : (v.bytesIn data).length = v.length := by
  simp only [Covered, Value.finish, bytesIn, Array.length_toList, Array.size_extract] at *
  omega

theorem read_at_gives (h : v.Covered data) :
    Gives data (Source.readAt v.length v.offset) (v.bytesIn data) := by
  intro s hs hdata
  have hahead : Source.ahead { s with position := v.offset } v.length = v.bytesIn data := by
    rw [← hdata]
    rfl
  have hlength := covered_length h
  refine Prod.ext ?_ ((readAt_still _ _ s).eq hs)
  rw [readAt_eq, read_in_memory (hs.moved v.offset), hahead, if_pos hlength]

theorem content_gives (h : v.Covered data) : Gives data v.content (v.bytesIn data) := by
  unfold Value.content
  by_cases hz : v.length = 0
  · rw [if_pos hz, List.eq_nil_of_length_eq_zero ((covered_length h).trans hz)]
    exact pure_gives []
  · rw [if_neg hz]
    exact read_at_gives h

theorem of_source_gives {action : SourceM α} {a : α} (h : Gives data action a) :
    Gives data (EvalM.ofSource action) a := by
  intro s hs hdata
  rw [of_source_run, h s hs hdata]

theorem length_of_integer {order : ByteOrder} {signed : Bool} {bytes : List UInt8}
    {i : MachineInt} (h : MachineInt.ofBytes? order signed bytes = some i) :
    ¬(bytes.length = 0 ∨ 8 < bytes.length) := by
  obtain ⟨size,hsize,-⟩ := Option.map_eq_some_iff.mp h
  unfold Size.holding? at hsize
  split at hsize <;> first | omega | cases hsize

theorem read_word_gives (h : v.Covered data) {signed : Bool} {i : MachineInt}
    (hi : MachineInt.ofBytes? (v.order.getD .little) signed (v.bytesIn data) = some i) :
    Gives data (v.readWord g signed) i := by
  have hlength := length_of_integer hi
  rw [covered_length h] at hlength
  unfold Value.readWord
  rw [if_neg hlength]
  refine bind_gives (of_source_gives (read_at_gives h)) ?_
  rw [hi]
  exact pure_gives i

end

structure MatchedFirst (values : List (Fixed α)) (isMatch : α → Bool) (mustMatch : Bool)
    (matched : Option Nat) : Prop where
  first : matched = values.findIdx? fun fixed => isMatch fixed.value
  found : matched = none → values = [] ∨ mustMatch = false

theorem match_fixed_first {setup : Setup μ} {values : List (Fixed α)} {isMatch : α → Bool}
    {content : String} {shown : α → String} {v w : Value} {s t : State μ} (hv : v.matched = none)
    (h : matchFixed setup values isMatch content shown v s = (.ok w,t)) :
    MatchedFirst values isMatch (setup.grammar.attributesOf v.element).mustMatch w.matched := by
  unfold matchFixed at h
  by_cases he : values.isEmpty
  · rw [if_pos he] at h
    obtain ⟨rfl,-⟩ := pure_ok.mp h
    have hnil := List.isEmpty_iff.mp he
    exact ⟨by rw [hv, hnil, List.findIdx?_nil],fun _ => .inl hnil⟩
  · rw [if_neg he] at h
    cases hfind : values.findIdx? fun fixed => isMatch fixed.value with
    | some i =>
      rw [hfind] at h
      obtain ⟨rfl,-⟩ := pure_ok.mp h
      exact ⟨hfind.symm,nofun⟩
    | none =>
      rw [hfind] at h
      dsimp only at h
      by_cases hmust : (setup.grammar.attributesOf v.element).mustMatch
      · rw [if_pos hmust] at h
        cases h
      · rw [if_neg hmust] at h
        obtain ⟨rfl,-⟩ := pure_ok.mp h
        exact ⟨hv.trans hfind.symm,fun _ => .inr (Bool.eq_false_iff.mpr hmust)⟩

/-- What a number, a string or a binary was matched with is what its bytes are. -/
structure Grounded (encodings : Text.Encodings) (g : Resolved) (data : Array UInt8) (v : Value) :
    Prop where
  number : ∀ settings, g.kind v.element = .number settings →
    ∃ i, v.integer? g data = some i ∧ v.order.isSome ∧
      MatchedFirst (g.numberValues v.element) (i.isMatch · v.length)
        (g.attributesOf v.element).mustMatch v.matched
  text : ∀ settings, g.kind v.element = .text settings →
    MatchedFirst (g.textValues v.element)
      (· == (g.attributesOf v.element).textOf encodings (v.bytesIn data))
      (g.attributesOf v.element).mustMatch v.matched
  binary : ∀ settings, g.kind v.element = .binary settings →
    MatchedFirst (g.binaryValues v.element) (· == v.bytesIn data)
      (g.attributesOf v.element).mustMatch v.matched

def Kind.isMatchable : Kind → Bool
  | .number _ | .text _ | .binary _ => true
  | _ => false

theorem grounded_other {encodings : Text.Encodings} {g : Resolved} {data : Array UInt8} {v : Value}
    (h : (g.kind v.element).isMatchable = false) : Grounded encodings g data v where
  number settings hk := by simp [hk, Kind.isMatchable] at h
  text settings hk := by simp [hk, Kind.isMatchable] at h
  binary settings hk := by simp [hk, Kind.isMatchable] at h

structure State.Over (data : Array UInt8) (σ : State μ) : Prop where
  memory : σ.source.InMemory
  data : σ.source.data = data

theorem State.Over.later {data : Array UInt8} {σ τ : State μ} (h : State.Over data σ)
    (hτ : State.SameReader σ τ) : State.Over data τ :=
  ⟨hτ.in_memory h.memory,hτ.data.trans h.data⟩

theorem State.Over.moved {data : Array UInt8} {σ : State μ} (h : State.Over data σ)
    (place : Nat) : State.Over data (σ.moved place) := ⟨h.memory.moved place,h.data⟩

section
variable {s t : State μ} {bytes : List UInt8}

theorem take_ahead (hs : s.source.InMemory) {n : Nat} (h : take n s = (.ok bytes,t)) :
    bytes = s.source.ahead n ∧ t.source.position = s.source.position + n := by
  have hp := (take_ok h).2.2
  rw [take_run, read_in_memory hs] at h
  by_cases hlength : (s.source.ahead n).length = n
  · rw [if_pos hlength] at h
    cases h
    exact ⟨rfl,hp⟩
  · rw [if_neg hlength] at h
    split at h
    · next heq =>
      split at heq <;> cases heq
    · cases h

theorem ahead_take (s : Source) {part n : Nat} (h : part ≤ n) :
    (s.ahead n).take part = s.ahead part := by
  rw [ahead_eq, ahead_eq, List.take_take, Nat.min_eq_left h]

theorem take_then_ahead (hs : s.source.InMemory) {n m : Nat} (h : take n s = (.ok bytes,t)) :
    bytes ++ t.source.ahead m = s.source.ahead (n + m) := by
  have hlength := (take_ok h).1
  obtain ⟨rfl,hp⟩ := take_ahead hs h
  have hdata := ((take_keeps (R := State.Kept) n).of_run h).source.data
  rw [ahead_append (Nat.le_add_right n m) hdata (by rw [hp, hlength]), hlength,
    Nat.add_sub_cancel_left]

theorem up_to_prefix {delimiter : UInt8} {bytes found : List UInt8}
    (h : upTo? delimiter bytes = some found) : bytes.take found.length = found := by
  induction bytes generalizing found with
  | nil => cases h
  | cons b rest ih =>
    rw [upTo?] at h
    by_cases hb : b == delimiter
    · rw [if_pos hb] at h
      cases h
      rfl
    · rw [if_neg hb] at h
      obtain ⟨more,hmore,rfl⟩ := Option.map_eq_some_iff.mp h
      rw [List.length_cons, List.take_succ_cons, ih hmore]

theorem found_ahead (hs : s.source.InMemory) {n : Nat} (htake : take n s = (.ok bytes,t))
    {delimiter : UInt8} {found : List UInt8} (hup : upTo? delimiter bytes = some found) :
    found = s.source.ahead found.length := by
  have hlength := up_to_length hup
  rw [(take_ok htake).1] at hlength
  have hprefix := up_to_prefix hup
  rwa [(take_ahead hs htake).1, ahead_take _ hlength, eq_comm] at hprefix

theorem scan_ahead (hs : s.source.InMemory) {delimiter : UInt8} {rest strides : Nat}
    {found : List UInt8} (h : scan delimiter rest strides s = (.ok (some found),t)) :
    found = s.source.ahead found.length := by
  induction strides generalizing s t found with
  | zero =>
    rw [scan] at h
    split at h
    · cases h
    · obtain ⟨bytes,u,htake,h1⟩ := bind_ok.mp h
      exact found_ahead hs htake (pure_ok.mp h1).1
  | succ strides ih =>
    rw [scan] at h
    obtain ⟨bytes,u,htake,h1⟩ := bind_ok.mp h
    rcases hup : upTo? delimiter bytes with _ | first <;> rw [hup] at h1
    · obtain ⟨more,w,hscan,h2⟩ := bind_ok.mp h1
      obtain ⟨hmap,-⟩ := pure_ok.mp h2
      obtain ⟨tail,rfl,rfl⟩ := Option.map_eq_some_iff.mp hmap
      have hu : u.source.InMemory :=
        Follows.in_memory ((take_keeps (R := State.Kept) stride).of_run htake).source hs
      rw [List.length_append, (take_ok htake).1, ← take_then_ahead hs htake, ← ih hu hscan]
    · obtain ⟨hfound,-⟩ := pure_ok.mp h1
      cases hfound
      exact found_ahead hs htake hup

end

section
variable {setup : Setup μ} {frame : Frame} {id : ElementId} {declared : Option Nat}
  {s t : State μ} {v : Value} {bytes : List UInt8}

theorem read_delimited_ahead (hs : s.source.InMemory) {delimiter : UInt8}
    (h : readDelimited setup frame id delimiter s = (.ok bytes,t)) :
    bytes = s.source.ahead bytes.length := by
  obtain ⟨start,_,hc,h1⟩ := bind_ok.mp h
  obtain ⟨rfl,rfl⟩ := cursor_ok hc
  dsimp only at h1
  split at h1
  · cases h1
  · obtain ⟨found,u,hf,h2⟩ := bind_ok.mp h1
    cases found with
    | none => cases h2
    | some found =>
      obtain ⟨_,_,hseek,h3⟩ := bind_ok.mp h2
      obtain ⟨rfl,-⟩ := pure_ok.mp h3
      exact scan_ahead hs hf

theorem read_counted_ahead (hs : s.source.InMemory)
    (h : readCounted setup frame id s = (.ok bytes,t)) :
    bytes = s.source.ahead bytes.length := by
  obtain ⟨start,_,hc,h1⟩ := bind_ok.mp h
  obtain ⟨rfl,rfl,-⟩ := claim_ok hc
  obtain ⟨head,u,hhead,h2⟩ := bind_ok.mp h1
  dsimp only at h2
  split at h2
  · cases h2
  · obtain ⟨more,w,hmore,h3⟩ := bind_ok.mp h2
    obtain ⟨rfl,rfl⟩ := pure_ok.mp h3
    have hu : u.source.InMemory :=
      Follows.in_memory ((take_keeps (R := State.Kept) 1).of_run hhead).source hs
    rw [List.length_append, (take_ok hhead).1, (take_ok hmore).1, ← take_then_ahead hs hhead,
      ← (take_ahead hu hmore).1]

theorem read_text_bytes_ahead (hs : s.source.InMemory)
    (h : readTextBytes setup frame id declared s = (.ok bytes,t)) :
    bytes = s.source.ahead bytes.length := by
  unfold readTextBytes at h
  cases hk : (setup.grammar.attributesOf id).textKind with
  | zeroTerminated =>
    rw [hk] at h
    exact read_delimited_ahead hs h
  | delimited delimiter =>
    rw [hk] at h
    exact read_delimited_ahead hs h
  | counted =>
    rw [hk] at h
    exact read_counted_ahead hs h
  | fixedLength =>
    rw [hk] at h
    obtain ⟨n,_,hn,h1⟩ := bind_ok.mp h
    obtain ⟨-,rfl⟩ := required_length_ok hn
    obtain ⟨_,u,hc,h2⟩ := bind_ok.mp h1
    obtain ⟨start,w,hstart,hu⟩ := bind_ok.mp hc
    obtain ⟨rfl,-,-⟩ := claim_ok hstart
    cases hu
    rw [(take_ok h2).1]
    exact (take_ahead hs h2).1

theorem leaf_bytes (id : ElementId) (s : State μ) (n : Nat) :
    (Value.leaf id s.source.position n).bytesIn s.source.data = s.source.ahead n := rfl

theorem read_number_grounded (hs : s.source.InMemory) {settings : NumberSettings}
    (hk : setup.grammar.kind id = .number settings)
    (h : readNumber setup frame id declared s = (.ok v,t)) :
    Grounded setup.encodings setup.grammar s.source.data v := by
  obtain ⟨n,_,hn,h1⟩ := bind_ok.mp h
  obtain ⟨-,rfl⟩ := integer_length_ok hn
  obtain ⟨start,_,hc,h2⟩ := bind_ok.mp h1
  obtain ⟨rfl,rfl,-⟩ := claim_ok hc
  obtain ⟨bytes,u,ht,h3⟩ := bind_ok.mp h2
  obtain ⟨order,_,ho,h4⟩ := bind_ok.mp h3
  obtain rfl := order_of_ok ho
  rcases hi : MachineInt.ofBytes? order (setup.grammar.attributesOf id).signed bytes with _ | i <;>
    rw [hi] at h4
  · cases h4
  · have hfirst := match_fixed_first rfl h4
    obtain ⟨-,matched,rfl⟩ := match_fixed_ok h4
    rw [(take_ahead hs ht).1] at hi
    refine ⟨fun _ _ => ⟨i,hi,rfl,hfirst⟩,fun _ hk' => ?_,fun _ hk' => ?_⟩ <;>
      cases hk.symm.trans hk'

theorem read_text_grounded (hs : s.source.InMemory) {settings : TextSettings}
    (hk : setup.grammar.kind id = .text settings)
    (h : readText setup frame id declared s = (.ok v,t)) :
    Grounded setup.encodings setup.grammar s.source.data v := by
  rw [read_text_eq] at h
  obtain ⟨start,_,hc,h1⟩ := bind_ok.mp h
  obtain ⟨rfl,rfl⟩ := cursor_ok hc
  obtain ⟨bytes,u,hb,h2⟩ := bind_ok.mp h1
  have hbytes := read_text_bytes_ahead hs hb
  have hfirst := match_fixed_first rfl h2
  obtain ⟨-,matched,rfl⟩ := match_fixed_ok h2
  refine ⟨fun _ hk' => ?_,fun _ _ => ?_,fun _ hk' => ?_⟩
  · cases hk.symm.trans hk'
  · have hcontent : ({ Value.leaf id s.source.position bytes.length with matched } :
        Value).bytesIn s.source.data = bytes := (leaf_bytes id s _).trans hbytes.symm
    rw [hcontent]
    exact hfirst
  · cases hk.symm.trans hk'

theorem read_binary_grounded (hs : s.source.InMemory) {settings : BinarySettings}
    (hk : setup.grammar.kind id = .binary settings)
    (h : readBinary setup frame id declared s = (.ok v,t)) :
    Grounded setup.encodings setup.grammar s.source.data v := by
  obtain ⟨n,_,hn,h1⟩ := bind_ok.mp h
  obtain ⟨-,rfl⟩ := required_length_ok hn
  obtain ⟨start,_,hc,h2⟩ := bind_ok.mp h1
  obtain ⟨rfl,rfl,-⟩ := claim_ok hc
  have other : ∀ {w : Value}, w.element = id → (MatchedFirst (setup.grammar.binaryValues id)
      (· == w.bytesIn s.source.data) (setup.grammar.attributesOf id).mustMatch w.matched) →
      Grounded setup.encodings setup.grammar s.source.data w := by
    rintro w rfl hfirst
    refine ⟨fun _ hk' => ?_,fun _ hk' => ?_,fun _ _ => hfirst⟩ <;> cases hk.symm.trans hk'
  split at h2
  · next hempty =>
    obtain ⟨_,_,hseek,h3⟩ := bind_ok.mp h2
    obtain ⟨rfl,-⟩ := pure_ok.mp h3
    have hnil := List.isEmpty_iff.mp hempty
    exact other rfl ⟨by rw [hnil, List.findIdx?_nil]; rfl,fun _ => .inl hnil⟩
  · obtain ⟨bytes,u,ht,h3⟩ := bind_ok.mp h2
    have hfirst := match_fixed_first rfl h3
    obtain ⟨-,matched,rfl⟩ := match_fixed_ok h3
    rw [(take_ahead hs ht).1] at hfirst
    exact other rfl hfirst

end

section
variable {setup : Setup μ} {data : Array UInt8}

def AllGrounded (encodings : Text.Encodings) (g : Resolved) (data : Array UInt8) (v : Value) :
    Prop :=
  ∀ w ∈ v.preorder, Grounded encodings g data w

theorem padding_grounded (hg : setup.grammar.Linked) {frame : Frame} {frames : List Frame}
    {id : ElementId} {declared : Option Nat} {s : Search} {ω υ : State μ} {padding : List Value}
    (h : Gathered setup frame frames id declared s ω padding υ) :
    ∀ w ∈ padding, AllGrounded setup.encodings setup.grammar data w :=
  h.forall_padding fun w hw => grounded_other (by rw [hw, hg.padding]; rfl)

/-- A search goes on over the same bytes, and what holds of whatever is read over them holds of its
children. -/
theorem Advance.over {attempt : ElementId → DecodeM μ Value} (ha : KeepsReader attempt)
    {Q : Value → Prop}
    (ih : ∀ {id σ v τ}, attempt id σ = (.ok v,τ) → State.Over data σ → Q v)
    {arrangement : Arrangement} {members : Array ElementId} {frame : Frame} {frames : List Frame}
    {s s' : Search} {σ τ : State μ}
    (h : Advance setup attempt arrangement members frame frames s σ s' τ)
    (hs : State.Over data σ ∧ ∀ w ∈ s.children.toList, Q w) :
    State.Over data τ ∧ ∀ w ∈ s'.children.toList, Q w := by
  obtain ⟨hσ,hs⟩ := hs
  cases h with
  | passed same later resumed =>
    rw [same]
    exact ⟨hσ.later resumed.reader,hs⟩
  | child hmember hmost open_ hleast hread =>
    have hυ := (hσ.moved _).later (child_quiet hmost hleast).reader
    rw [accept_children]
    exact ⟨hυ.later ((ha _).of_run hread).reader,
      List.forall_mem_append.mpr ⟨hs,List.forall_mem_singleton.mpr (ih hread hυ)⟩⟩

theorem read_kind_grounded (hg : setup.grammar.Linked) {attempt : ElementId → DecodeM μ Value}
    (ha : KeepsReader attempt)
    (ih : ∀ {id σ v τ}, attempt id σ = (.ok v,τ) → State.Over data σ →
      AllGrounded setup.encodings setup.grammar data v)
    {frame : Frame} {frames : List Frame} {id : ElementId} {declared : Option Nat}
    {ρ υ : State μ} {v : Value} (hρ : State.Over data ρ)
    (h : readKind setup attempt frame frames id declared ρ = (.ok v,υ)) :
    AllGrounded setup.encodings setup.grammar data v := by
  have hread := h
  unfold readKind at h
  rcases read_kind_ok ha hread with ⟨simple,read,kept⟩ | ⟨kind,linked,read⟩ |
    ⟨kind,search,gathered⟩
  · refine forall_preorder_leaf ?_ read.children
    cases hk : setup.grammar.kind id with
    | number settings =>
      rw [hk] at h
      exact hρ.data ▸ read_number_grounded hρ.memory hk h
    | text settings =>
      rw [hk] at h
      exact hρ.data ▸ read_text_grounded hρ.memory hk h
    | binary settings =>
      rw [hk] at h
      exact hρ.data ▸ read_binary_grounded hρ.memory hk h
    | _ => exact grounded_other (by rw [read.element, hk]; rfl)
  · rename_i w link target
    refine forall_preorder.mpr ⟨grounded_other ?_,(forall_preorder.mp (ih read hρ)).2⟩
    show (setup.grammar.kind id).isMatchable = false
    rw [kind]
    rfl
  · rename_i s ω padding settings
    have hfound := search.preserves (I := fun s σ => State.Over data σ ∧
      ∀ w ∈ s.children.toList, AllGrounded setup.encodings setup.grammar data w)
      (fun hadv hs => hadv.over ha ih hs)
      ⟨hρ,List.forall_mem_nil _⟩
    refine forall_preorder.mpr ⟨grounded_other ?_,?_⟩
    · show (setup.grammar.kind id).isMatchable = false
      rw [kind]
      rfl
    · exact List.forall_mem_append.mpr ⟨hfound.2,padding_grounded hg gathered⟩

theorem read_element_grounded (hg : setup.grammar.Linked) {room : Nat} {frames : List Frame}
    {id : ElementId} {σ τ : State μ} {v : Value}
    (h : readElement setup room frames id σ = (.ok v,τ)) (hσ : State.Over data σ) :
    AllGrounded setup.encodings setup.grammar data v :=
  read_element_kind
    (P := fun _ _ σ v _ => State.Over data σ → AllGrounded setup.encodings setup.grammar data v)
    (fun ih _ _ _ _ _ _ _ _ _ opening read _ hσ =>
      read_kind_grounded hg (read_element_reader setup _ _) ih
        (hσ.later opening.quiet.reader) read) h hσ

theorem read_root_over {Q : Value → Prop}
    (read : ∀ {room frames id σ v τ}, readElement setup room frames id σ = (.ok v,τ) →
      State.Over data σ → Q v) {length : Nat} {σ τ : State μ} {v : Value}
    (h : readRoot setup length σ = (.ok v,τ)) (hσ : State.Over data σ) :
    State.Over data τ ∧ ∀ w ∈ v.children, Q w := by
  obtain ⟨ρ,most,children,consumed,υ,hρ,hrounds,rfl,hτ,-⟩ := read_root_ok h
  obtain ⟨hυ,hchildren⟩ := hrounds.preserves (I := fun children _ σ => State.Over data σ ∧
    ∀ w ∈ children.toList, Q w)
    (fun hr hs => ⟨hs.1.later hr.reader,hs.2⟩)
    (fun {children consumed σ v τ} hread hs => by
      have hbegin := hs.1.moved consumed
      rw [Array.toList_push]
      exact ⟨hbegin.later ((read_element_reader setup _ _ _).of_run hread).reader,
        List.forall_mem_append.mpr ⟨hs.2,List.forall_mem_singleton.mpr (read hread hbegin)⟩⟩)
    ⟨hσ.later hρ.reader,List.forall_mem_nil _⟩
  exact ⟨hυ.later hτ.reader,hchildren⟩

/-- So everything below the root is what its bytes are. -/
theorem read_root_grounded (hg : setup.grammar.Linked) {length : Nat} {σ τ : State μ} {v : Value}
    (h : readRoot setup length σ = (.ok v,τ)) (hσ : State.Over data σ) :
    State.Over data τ ∧ ∀ w ∈ v.children, AllGrounded setup.encodings setup.grammar data w :=
  read_root_over (Q := AllGrounded setup.encodings setup.grammar data) (read_element_grounded hg)
    h hσ

end

theorem Value.Tiled.within {v : Value} (h : v.Tiled) :
    ∀ w ∈ v.preorder, v.offset ≤ w.offset ∧ w.finish ≤ v.finish := by
  induction v using tree_induct with
  | node v ih =>
    obtain ⟨hv,hc⟩ := tiled_eq.mp h
    intro w hw
    rcases mem_preorder.mp hw with rfl | ⟨child,hchild,hw⟩
    · exact ⟨Nat.le_refl _,Nat.le_refl _⟩
    · have hnode := ih child hchild (hc child hchild) w hw
      have htiles := hv.resolve_left (List.ne_nil_of_mem hchild)
      have hbounds := tiles_within htiles child hchild
      omega

section
variable {g : Resolved} {data : Array UInt8} {v : Value}

theorem tiles_covered {vs : List Value} {a b : Nat} (h : Tiles a vs b)
    (hv : ∀ v ∈ vs, v.Covered data) (ha : a ≤ data.size) : b ≤ data.size := by
  induction vs generalizing a with
  | nil => exact h ▸ ha
  | cons v rest ih =>
    obtain ⟨ho,hrest⟩ := h
    have hcovered := hv v List.mem_cons_self
    refine ih hrest (fun w hw => hv w (List.mem_cons_of_mem v hw)) ?_
    simp only [Covered, Value.finish] at *
    omega

theorem Placed.covered {id : ElementId} {start : Nat} (h : Placed g id start data.size v) :
    ∀ w ∈ v.preorder, w.Covered data := by
  intro w hw
  have hinside := h.inside
  have hstart := h.offset
  obtain ⟨hlow,hhigh⟩ := h.tiled.within w hw
  simp only [Covered, Value.finish] at *
  omega

/-- All nodes of a root have their bytes in the data. -/
theorem read_root_covered {setup : Setup μ} (hg : setup.grammar.Linked) {σ τ : State μ}
    (h : readRoot setup data.size σ = (.ok v,τ)) : ∀ w ∈ v.preorder, w.Covered data := by
  obtain ⟨ρ,most,children,consumed,υ,-,hrounds,rfl,-,-⟩ := read_root_ok h
  have hchildren : ∀ w ∈ children.toList, ∀ u ∈ w.preorder, u.Covered data :=
    hrounds.forall_children (fun hread => (read_element_placed hg hread).1.covered)
      (List.forall_mem_nil _)
  have htiles := rounds_tile hg hrounds
  have hfinish : consumed ≤ data.size := tiles_covered htiles
    (fun w hw => hchildren w hw w (self_mem_preorder w)) (Nat.zero_le _)
  have hroot := Nat.le_trans (Nat.le_of_eq (tiles_length htiles)) hfinish
  exact forall_preorder.mpr ⟨.inr hroot,hchildren⟩

theorem render_at_eq (encodings : Text.Encodings) (g : Resolved) (depth : Nat) (v : Value) :
    v.renderAt encodings g depth = v.renderWith encodings g (do
      let lines ← renderAll encodings g (depth + 1) 0 v.children
      return "(" ++ toString v.children.length ++ " children)\n" ++ lines) := by
  cases v
  rw [renderAt]

theorem render_with_gives (encodings : Text.Encodings) (g : Resolved) (h : v.Covered data)
    {children : SourceM String} (hc : ∃ text, Gives data children text) :
    ∃ text, Gives data (v.renderWith encodings g children) text := by
  obtain ⟨lines,hlines⟩ := hc
  unfold renderWith
  cases g.kind v.element with
  | grammar => exact ⟨_,bind_gives hlines (pure_gives _)⟩
  | struct settings => exact ⟨lines,hlines⟩
  | structRef link => exact ⟨lines,hlines⟩
  | number settings => exact ⟨_,map_gives _ (content_gives h)⟩
  | offset settings => exact ⟨_,map_gives _ (content_gives h)⟩
  | text settings => exact ⟨_,map_gives _ (content_gives h)⟩
  | binary settings => exact ⟨_,map_gives _ (content_gives h)⟩
  | custom script => exact ⟨_,map_gives _ (content_gives h)⟩
  | padding => exact ⟨_,pure_gives _⟩
  | script script => exact ⟨_,pure_gives _⟩
  | scriptElement script => exact ⟨_,pure_gives _⟩
  | grammarRef file => exact ⟨_,pure_gives _⟩

theorem render_all_gives (encodings : Text.Encodings) (g : Resolved) {values : List Value}
    (h : ∀ w ∈ values, ∀ depth, ∃ text, Gives data (w.renderAt encodings g depth) text)
    (depth position : Nat) :
    ∃ text, Gives data (renderAll encodings g depth position values) text := by
  induction values generalizing position with
  | nil => exact ⟨"",pure_gives ""⟩
  | cons w rest ih =>
    obtain ⟨hw,hrest⟩ := List.forall_mem_cons.mp h
    obtain ⟨text,htext⟩ := hw depth
    obtain ⟨lines,hlines⟩ := ih hrest (position + 1)
    exact ⟨_,bind_gives htext (bind_gives hlines (pure_gives _))⟩

/-- Where every node has its bytes, the whole tree can be rendered. -/
theorem render_at_gives (encodings : Text.Encodings) (g : Resolved)
    (h : ∀ w ∈ v.preorder, w.Covered data) (depth : Nat) :
    ∃ text, Gives data (v.renderAt encodings g depth) text := by
  induction v using tree_induct generalizing depth with
  | node v ih =>
    obtain ⟨hv,hbelow⟩ := forall_preorder.mp h
    obtain ⟨lines,hlines⟩ :=
      render_all_gives encodings g (fun w hw depth => ih w hw (hbelow w hw) depth) (depth + 1) 0
    rw [render_at_eq]
    exact render_with_gives encodings g hv ⟨_,bind_gives hlines (pure_gives _)⟩

end

def labelled (text : String) : Option String → String
  | some name => if name.isEmpty then text else text ++ " (" ++ name ++ ")"
  | none => text

/-- What is read again of a value over `data` is what it was matched with: the integer of a number
is read and shown in the number's own byte order and with its element's sign, strings and binaries
are shown by the bytes that they were compared by. -/
structure Reread (encodings : Text.Encodings) (g : Resolved) (data : Array UInt8) (v : Value) : Prop
    extends Grounded encodings g data v where
  integer : ∀ settings i, g.kind v.element = .number settings → v.integer? g data = some i →
    Gives data (v.readInt g) i ∧
      ∀ depth, Gives data (v.renderAt encodings g depth)
        (labelled (i.display (g.attributesOf v.element).radix v.length)
          (v.matchedName? (g.numberValues v.element)))
  string : ∀ settings, g.kind v.element = .text settings → ∀ depth,
    Gives data (v.renderAt encodings g depth)
      ((g.attributesOf v.element).textOf encodings (v.bytesIn data))
  bytes : ∀ settings, g.kind v.element = .binary settings → ∀ depth,
    Gives data (v.renderAt encodings g depth) (v.binaryText g (v.bytesIn data))

theorem Grounded.reread {encodings : Text.Encodings} {g : Resolved} {data : Array UInt8}
    {v : Value} (h : Grounded encodings g data v) (hv : v.Covered data) :
    Reread encodings g data v where
  toGrounded := h
  integer settings i hk hi := by
    have hnumber : (g.kind v.element).isNumber = true := by
      rw [hk]
      rfl
    have htext : v.integerText g (v.bytesIn data) =
        labelled (i.display (g.attributesOf v.element).radix v.length)
          (v.matchedName? (g.numberValues v.element)) := by
      have hi' : MachineInt.ofBytes? (v.order.getD .little) (g.attributesOf v.element).signed
          (v.bytesIn data) = some i := hi
      simp only [integerText, hnumber, Bool.true_and, hi', covered_length hv]
      rfl
    refine ⟨?_,fun depth => ?_⟩
    · rw [Value.read_int_eq, hk]
      exact read_word_gives hv hi
    · rw [render_at_eq, ← htext, renderWith, hk]
      exact map_gives _ (content_gives hv)
  string settings hk depth := by
    rw [render_at_eq, renderWith, hk]
    exact map_gives _ (content_gives hv)
  bytes settings hk depth := by
    rw [render_at_eq, renderWith, hk]
    exact map_gives _ (content_gives hv)

theorem render_run {setup : Setup μ} {data : Array UInt8} {v : Value} {text : String}
    {τ : State μ} (h : Gives data (v.render setup.encodings setup.grammar) text)
    (hτ : State.Over data τ) : State.render setup v τ = (.ok text,τ) := by
  unfold State.render
  rw [h τ.source hτ.memory hτ.data]

/-- Over bytes in memory, what was matched while a value was decoded is what is read again and
shown, whatever became of the dynamic byte order meanwhile: of every number, string and binary, and
from any place of the cursor, which stays. The whole tree can be rendered. Only a root whose own
element was replaced is not matched with anything, so that it is left out if it is of a kind that
would be. -/
theorem decoded_reread {authored : Grammar} {setup : Setup μ}
    (hg : authored.resolve = .ok setup.grammar) {σ : State μ} (hσ : σ.source.InMemory) :
    (∀ id offset v τ, decodeElement setup id offset σ = (.ok v,τ) →
      (∀ w ∈ v.preorder, Reread setup.encodings setup.grammar σ.source.data w) ∧
      ∃ text, Gives σ.source.data (v.render setup.encodings setup.grammar) text ∧
        State.render setup v τ = (.ok text,τ)) ∧
    (∀ v τ, decode setup σ = (.ok v,τ) →
      (∀ w ∈ v.children.flatMap preorder, Reread setup.encodings setup.grammar σ.source.data w) ∧
      ((setup.grammar.kind Grammar.root).isMatchable = false →
        ∀ w ∈ v.preorder, Reread setup.encodings setup.grammar σ.source.data w) ∧
      ∃ text, Gives σ.source.data (v.render setup.encodings setup.grammar) text ∧
        State.render setup v τ = (.ok text,τ)) := by
  have hl := Grammar.resolve_linked hg
  constructor
  · intro id offset v τ h
    obtain ⟨ρ,hρ,hread⟩ := decode_element_ok h
    have hover : State.Over σ.source.data ρ :=
      State.Over.later ⟨hσ,rfl⟩ hρ.reader
    have hτ := hover.later ((read_element_reader setup _ _ _).of_run hread).reader
    have hgrounded := read_element_grounded hl hread hover
    have hcovered := (hσ.length ▸ (read_element_placed hl hread).1).covered
    obtain ⟨text,htext⟩ := render_at_gives setup.encodings setup.grammar hcovered 0
    exact ⟨fun w hw => (hgrounded w hw).reread (hcovered w hw),text,htext,render_run htext hτ⟩
  · intro v τ h
    obtain ⟨ρ,hρ,hread⟩ := decode_ok h
    obtain ⟨hτ,hgrounded⟩ := read_root_grounded hl hread (State.Over.later ⟨hσ,rfl⟩ hρ.reader)
    have hcovered := read_root_covered hl (hσ.length ▸ hread)
    have hbelow : ∀ w ∈ v.children.flatMap preorder,
        Reread setup.encodings setup.grammar σ.source.data w := by
      intro w hw
      obtain ⟨child,hchild,hnode⟩ := List.mem_flatMap.mp hw
      exact (hgrounded child hchild w hnode).reread
        (hcovered w (mem_preorder.mpr (.inr ⟨child,hchild,hnode⟩)))
    obtain ⟨text,htext⟩ := render_at_gives setup.encodings setup.grammar hcovered 0
    refine ⟨hbelow,fun hroot w hw => ?_,text,htext,render_run htext hτ⟩
    rw [preorder_eq] at hw
    rcases List.mem_cons.mp hw with rfl | hw
    · refine (grounded_other ?_).reread (hcovered w (self_mem_preorder w))
      rw [read_root_element hread]
      exact hroot
    · exact hbelow w hw

def coded : Grammar :=
  let code := ((Element.number "code").withLength (.literal 1)).withValue ⟨"one",1⟩
  let word := (Element.text "word" (some .zeroTerminated)).withString ⟨"greeting","hi"⟩
  let g := (Grammar.new "coded").add (Element.struct "record")
  let g := (g.addChild 1 (code.withValue ⟨"two",2⟩)).toOption.getD g
  let g := (g.addChild 1 word).toOption.getD g
  g.setStart (.index 1)

theorem coded_reread :
    ∃ v τ, decode (Setup.plain coded) (bytesState #[2, 104, 105, 0]) =
        (.ok v,τ) ∧
      (∀ w ∈ v.preorder, Reread Text.Encodings.common coded.link.1 #[2, 104, 105, 0] w) ∧
      ∃ text, State.render (Setup.plain coded) v τ = (.ok text,τ) := by
  have hg : coded.resolve = .ok coded.link.1 := Grammar.resolve_sound (by decide +kernel)
  have hroot : (coded.link.1.kind Grammar.root).isMatchable = false := by decide +kernel
  obtain ⟨v,τ,hv⟩ := run_ok
    (r := decode (Setup.plain coded) (bytesState #[2, 104, 105, 0]))
    (by decide +kernel)
  obtain ⟨-,hnodes,text,-,htext⟩ := (decoded_reread hg
    (σ := bytesState #[2, 104, 105, 0]) (of_bytes_in_memory _)).2 v τ hv
  exact ⟨v,τ,hv,hnodes hroot,text,htext⟩

def replacedNumber : Grammar :=
  (((Grammar.new "one").add ((Element.binary "byte").withLength (.literal 1))).setStart
    (.index 1)).replace Grammar.root
      (((Element.number "one").withLength (.literal 1)).withValue ⟨"one",1⟩)

/-- A root that is itself a number is not matched, though its content is its only fixed value. -/
theorem replaced_number_unmatched :
    replacedNumber.resolve = .ok replacedNumber.link.1 ∧
      ∃ v τ i, decode (trial replacedNumber false) (bytesState #[1]) = (.ok v,τ) ∧
        v.integer? replacedNumber.link.1 #[1] = some i ∧ i.isMatch 1 v.length ∧
        v.matched = none ∧ ¬Reread Text.Encodings.common replacedNumber.link.1 #[1] v := by
  obtain ⟨v,τ,hv⟩ := run_ok (r := decode (trial replacedNumber false) (bytesState #[1]))
    (by decide +kernel)
  have hvalues : replacedNumber.link.1.numberValues Grammar.root = [⟨"one",1⟩] := by
    decide +kernel
  have hkind : (replacedNumber.link.1.kind Grammar.root).isNumber := by decide +kernel
  have hmust : (replacedNumber.link.1.attributesOf Grammar.root).mustMatch := by decide +kernel
  have hfound : (decode (trial replacedNumber false) (bytesState #[1])).1.toOption.any fun v =>
      v.element == Grammar.root && v.matched.isNone &&
        (v.integer? replacedNumber.link.1 #[1]).any (·.isMatch 1 v.length) := by
    decide +kernel
  rw [hv] at hfound
  simp only [Except.toOption, Option.any_some, Bool.and_eq_true, beq_iff_eq,
    Option.isNone_iff_eq_none, Option.any_eq_true] at hfound
  obtain ⟨⟨helement,hnone⟩,i,hi,hmatch⟩ := hfound
  refine ⟨Grammar.resolve_sound (by decide +kernel),v,τ,i,hv,hi,hmatch,hnone,fun h => ?_⟩
  cases hk : replacedNumber.link.1.kind v.element with
  | number settings =>
    obtain ⟨_,-,-,hfirst⟩ := h.number settings hk
    rw [helement, hvalues] at hfirst
    rcases hfirst.found hnone with hnil | hno
    · cases hnil
    · rw [hmust] at hno
      cases hno
  | _ =>
    rw [helement] at hk
    rw [hk] at hkind
    cases hkind

end ByteGrammar
