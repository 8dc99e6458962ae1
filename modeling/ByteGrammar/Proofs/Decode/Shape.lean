import ByteGrammar.Proofs.Decode.Root
import ByteGrammar.Proofs.Resolved.Linked
import ByteGrammar.Proofs.Value.Tree

/-!
# The shape of decoded values

Whatever is read begins at the cursor, stays in its frame, is filled by its children down to the
leaves and passes its own checks. So the checks that a decode can make of each value as it is read
have nothing to find, and it does not matter whether they are made.
-/

set_option autoImplicit false

namespace ByteGrammar

open Stepwise DecodeM Source Value

variable {μ : Type}

def Value.Sound (g : Resolved) (v : Value) : Prop :=
  v.Tiled ∧ ∀ w ∈ v.preorder, w.check g = .ok ()

structure Placed (g : Resolved) (id : ElementId) (start limit : Nat) (v : Value) : Prop where
  element : v.element = id
  offset : v.offset = start
  inside : v.finish ≤ max start limit
  tiled : v.Tiled
  valid : ∀ w ∈ v.preorder, w.check g = .ok ()

theorem Placed.sound {g : Resolved} {id : ElementId} {start limit : Nat} {v : Value}
    (h : Placed g id start limit v) : v.Sound g := ⟨h.tiled,h.valid⟩

theorem placed_leaf {g : Resolved} {id : ElementId} {start limit : Nat} {v : Value}
    (he : v.element = id) (ho : v.offset = start) (hi : v.finish ≤ max start limit)
    (hc : v.children = []) (hk : g.kind id ≠ .grammar) : Placed g id start limit v := by
  refine ⟨he,ho,hi,?_,?_⟩
  · rw [tiled_eq, hc]
    exact ⟨.inl rfl,nofun⟩
  · exact forall_preorder_leaf (check_ok.mpr ⟨he ▸ Resolved.known_of_kind hk,.inl hc⟩) hc

theorem placed_node {g : Resolved} {id : ElementId} {start limit : Nat} {v : Value}
    (he : v.element = id) (ho : v.offset = start) (hi : v.finish ≤ max start limit)
    (ht : v.children = [] ∨ Tiles v.offset v.children v.finish)
    (hc : ∀ w ∈ v.children, w.Sound g)
    (hk : g.kind id ≠ .grammar) (hcomp : (g.kind id).isComposite) :
    Placed g id start limit v := by
  refine ⟨he,ho,hi,tiled_eq.mpr ⟨ht,fun w hw => (hc w hw).1⟩,forall_preorder.mpr ⟨?_,?_⟩⟩
  · rw [check_ok, he]
    exact ⟨Resolved.known_of_kind hk,ht.imp_right fun h => ⟨hcomp,h⟩⟩
  · exact fun child hchild => (hc child hchild).2

structure Filled (frame : Frame) (s : Search) : Prop where
  tiles : Tiles frame.start s.children.toList (frame.start + s.consumed)
  inside : frame.start + s.consumed ≤ frame.finish

theorem Filled.accept {g : Resolved} {frame : Frame} {s : Search} {id : ElementId} {v : Value}
    (h : Filled frame s) (hv : Placed g id (frame.start + s.consumed) frame.finish v)
    (arrangement : Arrangement) (least : Nat) : Filled frame (s.accept arrangement least v) := by
  have hf : v.finish = frame.start + (s.consumed + v.length) := by
    rw [Value.finish, hv.offset]
    omega
  have hin := hv.inside
  have hin' := h.inside
  constructor
  · rw [accept_children]
    simp only [Search.accept]
    rw [← hf]
    exact tiles_snoc h.tiles hv.offset
  · simp only [Search.accept]
    omega

theorem Filled.gathered {setup : Setup μ} {frame : Frame} {frames : List Frame} {id : ElementId}
    {declared : Option Nat} {s : Search} {ω υ : State μ} {padding : List Value}
    (h : Filled frame s) (hpad : Gathered setup frame frames id declared s ω padding υ) :
    ∃ last, Tiles frame.start (s.children.toList ++ padding) last ∧ last ≤ frame.finish := by
  rcases hpad.filled with ⟨rfl,-⟩ | ⟨length,-,hlt,hle,rfl⟩
  · rw [List.append_nil]
    exact ⟨_,h.tiles,h.inside⟩
  · have hin := h.inside
    refine ⟨_,tiles_snoc h.tiles rfl,?_⟩
    simp only [Value.finish, Value.leaf]
    omega

theorem padding_sound {setup : Setup μ} (hg : setup.grammar.Linked) {frame : Frame}
    {frames : List Frame} {id : ElementId} {declared : Option Nat} {s : Search} {ω υ : State μ}
    {padding : List Value} (h : Gathered setup frame frames id declared s ω padding υ) :
    ∀ w ∈ padding, w.Sound setup.grammar := by
  rcases h.filled with ⟨rfl,-⟩ | ⟨length,-,-,-,rfl⟩
  · exact List.forall_mem_nil _
  · have hkind : setup.grammar.kind setup.grammar.padding ≠ .grammar := by
      intro hk
      rw [hg.padding] at hk
      cases hk
    exact List.forall_mem_singleton.mpr
      (placed_leaf rfl rfl (Nat.le_max_right _ _) rfl hkind).sound

theorem Gathered.forall_padding {setup : Setup μ} {frame : Frame} {frames : List Frame}
    {id : ElementId} {declared : Option Nat} {s : Search} {ω υ : State μ} {padding : List Value}
    (h : Gathered setup frame frames id declared s ω padding υ) {P : Value → Prop}
    (hP : ∀ w : Value, w.element = setup.grammar.padding → P w) :
    ∀ w ∈ padding, ∀ u ∈ w.preorder, P u := by
  rcases h.filled with ⟨rfl,-⟩ | ⟨length,-,-,-,rfl⟩
  · exact List.forall_mem_nil _
  · exact List.forall_mem_singleton.mpr (forall_preorder_leaf (hP _ rfl) rfl)

theorem Placed.within {g : Resolved} {id : ElementId} {start limit limit' : Nat} {v : Value}
    (h : Placed g id start limit v) (hl : limit ≤ max start limit') :
    Placed g id start limit' v :=
  ⟨h.element,h.offset,by have hi := h.inside; omega,h.tiled,h.valid⟩

section
variable {setup : Setup μ} {attempt : ElementId → DecodeM μ Value} {frame : Frame}
  {frames : List Frame}

theorem Advance.filled {g : Resolved} {arrangement : Arrangement} {members : Array ElementId}
    (ih : ∀ {id σ v τ}, attempt id σ = (.ok v,τ) →
      Placed g id σ.source.position frame.finish v)
    {s s' : Search} {σ τ : State μ}
    (h : Advance setup attempt arrangement members frame frames s σ s' τ)
    (hs : Filled frame s) : Filled frame s' := by
  cases h with
  | passed same later resumed =>
    rw [same]
    exact ⟨hs.tiles,hs.inside⟩
  | child hmember hmost room hleast hread =>
    have hv := ih hread
    rw [(child_quiet hmost hleast).position] at hv
    exact hs.accept hv _ _

theorem start_filled (members : List ElementId) (h : frame.start ≤ frame.finish) :
    Filled frame (Search.start members) := ⟨rfl,h⟩

/-- What the reader of an element returns is placed in the element's frame, if whatever is read
inside is. -/
theorem reads_placed (hg : setup.grammar.Linked)
    (ih : ∀ {id σ v τ}, attempt id σ = (.ok v,τ) →
      Placed setup.grammar id σ.source.position frame.finish v ∧ τ.source.position = v.finish)
    {id : ElementId} {declared : Option Nat} {ρ υ : State μ} {v : Value}
    (hstart : ρ.source.position = frame.start) (hle : frame.start ≤ frame.finish)
    (h : Reads setup attempt frame frames id declared ρ v υ) :
    Placed setup.grammar id frame.start frame.finish v ∧ υ.source.position = v.finish := by
  cases h with
  | leaf simple read kept =>
    have ho := read.offset.trans hstart
    have hin := read.inside
    rw [ho] at hin
    refine ⟨placed_leaf read.element ho hin read.children ?_,read.position⟩
    intro hk
    rw [hk] at simple
    cases simple
  | reference kind linked read =>
    obtain ⟨hw,hp⟩ := ih read
    rw [hstart] at hw
    obtain ⟨ht,hc⟩ := tiled_eq.mp hw.tiled
    have hvalid := (forall_preorder.mp hw.valid).2
    refine ⟨placed_node rfl hw.offset hw.inside ht (fun u hu => ⟨hc u hu,hvalid u hu⟩) ?_ ?_,hp⟩
    · rw [kind]
      nofun
    · rw [kind]
      rfl
  | struct kind search gathered =>
    rename_i s ω padding settings
    have hfilled : Filled frame s :=
      search.preserves (I := fun s _ => Filled frame s)
        (fun hadv hs => hadv.filled (fun hread => (ih hread).1) hs) (start_filled _ hle)
    have hsound : ∀ w ∈ s.children.toList, w.Sound setup.grammar :=
      search.forall_children (fun hread => (ih hread).1.sound) (List.forall_mem_nil _)
    have hk : setup.grammar.kind id ≠ .grammar := by
      rw [kind]
      nofun
    have hcomp : (setup.grammar.kind id).isComposite := by
      rw [kind]
      rfl
    obtain ⟨last,htiles,hlast⟩ := hfilled.gathered gathered
    have hfinish : (Value.spanning id frame.start (s.children.toList ++ padding)).finish = last :=
      tiles_length htiles
    refine ⟨placed_node rfl rfl ?_ (.inr ?_)
      (List.forall_mem_append.mpr ⟨hsound,padding_sound hg gathered⟩) hk hcomp,
      gathered.position⟩
    · rw [hfinish]
      omega
    · rw [hfinish]
      exact htiles

end

section
variable {setup : Setup μ}

/-- Whatever is read is placed at the cursor, which moves behind it. -/
theorem read_element_placed (hg : setup.grammar.Linked) {room : Nat} {frames : List Frame}
    {id : ElementId} {σ τ : State μ} {v : Value}
    (h : readElement setup room frames id σ = (.ok v,τ)) :
    Placed setup.grammar id σ.source.position (limitAt frames σ) v ∧
      τ.source.position = v.finish := by
  refine read_element_ok (P := fun frames id σ v τ =>
    Placed setup.grammar id σ.source.position (limitAt frames σ) v ∧
      τ.source.position = v.finish) (fun ih => ?_) h
  intro frames frame id declared σ ρ υ τ v opening reads closing
  obtain ⟨hstart,hle,hlimit⟩ := opening.bounds
  obtain ⟨hv,hp⟩ := reads_placed hg ih (opening.position.trans hstart.symm) hle reads
  rw [hstart] at hv
  exact ⟨hv.within hlimit,closing.position.trans hp⟩

theorem rounds_tile (hg : setup.grammar.Linked) {length : Nat} {id : ElementId}
    {most : Option Nat} {children : Array Value} {consumed : Nat} {σ τ : State μ}
    (h : Rounds (readInRoot setup length id) most length #[] 0 σ children consumed τ) :
    Tiles 0 children.toList consumed := by
  refine h.preserves (I := fun children consumed _ => Tiles 0 children.toList consumed)
    (fun _ hs => hs) ?_ rfl
  intro children consumed σ v τ hread hs
  obtain ⟨hv,-⟩ := read_element_placed hg hread
  have hf : v.finish = consumed + v.length := by
    rw [Value.finish, hv.offset]
    rfl
  rw [Array.toList_push, ← hf]
  exact tiles_snoc hs hv.offset

/-- The root of a decoded tree is filled like every node. It is valid just if its element is of a
kind that may have children, or it has none. -/
theorem read_root_shape (hg : setup.grammar.Linked) {length : Nat} {σ τ : State μ} {v : Value}
    (h : readRoot setup length σ = (.ok v,τ)) :
    (v.validate setup.grammar = .ok () ↔
      (setup.grammar.kind Grammar.root).isComposite ∨ v.children = []) ∧
      v.Tiled ∧ τ.source.position = v.finish := by
  obtain ⟨ρ,most,children,consumed,υ,-,hrounds,rfl,-,hp⟩ := read_root_ok h
  have htiles := rounds_tile hg hrounds
  have hsound : ∀ w ∈ children.toList, w.Sound setup.grammar :=
    hrounds.forall_children (fun hread => (read_element_placed hg hread).1.sound)
      (List.forall_mem_nil _)
  have hfinish : (Value.spanning Grammar.root 0 children.toList).finish = consumed :=
    tiles_length htiles
  have htiles' : Tiles 0 children.toList
      (Value.spanning Grammar.root 0 children.toList).finish := hfinish ▸ htiles
  refine ⟨?_,tiled_eq.mpr ⟨.inr htiles',fun w hw => (hsound w hw).1⟩,hp.trans hfinish.symm⟩
  rw [validate_ok, forall_preorder, check_ok]
  constructor
  · rintro ⟨⟨-,hc⟩,-⟩
    exact hc.elim .inr fun h => .inl h.1
  · intro hc
    exact ⟨⟨hg.root,hc.elim (fun h => .inr ⟨h,htiles'⟩) .inl⟩,fun child hchild =>
      (hsound child hchild).2⟩

end

def Setup.checking (setup : Setup μ) (check : Bool) : Setup μ :=
  { setup with options := { setup.options with checkShape := check } }

section
variable (setup : Setup μ) (check : Bool)

theorem check_read_pass {setup : Setup μ} {v : Value} {s : State μ}
    (hv : v.check setup.grammar = .ok ()) (hs : s.source.position = v.finish) :
    checkRead setup v s = (.ok ⟨⟩,s) := by
  unfold checkRead
  by_cases hc : setup.options.checkShape
  · rw [if_pos hc, hv]
    dsimp only
    rw [bind_run, cursor_run]
    dsimp only
    rw [if_neg (not_not_intro hs)]
    rfl
  · rw [if_neg hc]
    rfl

theorem search_checking (attempt : ElementId → DecodeM μ Value) (arrangement : Arrangement)
    (members : Array ElementId) (frame : Frame) (frames : List Frame) (steps : Nat)
    (s : Search) :
    search (setup.checking check) attempt arrangement members frame frames steps s =
      search setup attempt arrangement members frame frames steps s := by
  induction steps generalizing s with
  | zero => rfl
  | succ steps ih =>
    rw [search, search]
    congr 1
    funext stage
    cases stage with
    | searching next => exact ih next
    | ended last dry => rfl

theorem read_struct_checking (attempt : ElementId → DecodeM μ Value) (frame : Frame)
    (frames : List Frame) (id : ElementId) (declared : Option Nat) :
    readStruct (setup.checking check) attempt frame frames id declared =
      readStruct setup attempt frame frames id declared := by
  have hgrammar : (setup.checking check).grammar = setup.grammar := rfl
  unfold readStruct
  simp only [search_checking, check_counts_congr hgrammar]
  rfl

theorem read_kind_checking (attempt : ElementId → DecodeM μ Value) (frame : Frame)
    (frames : List Frame) (id : ElementId) (declared : Option Nat) :
    readKind (setup.checking check) attempt frame frames id declared =
      readKind setup attempt frame frames id declared := by
  unfold readKind
  rw [read_struct_checking]
  rfl

theorem repeat_start_checking (attempt : DecodeM μ Value) (least : Nat) (most : Option Nat)
    (length rounds : Nat) (children : Array Value) (consumed : Nat) :
    repeatStart (setup.checking check) attempt least most length rounds children consumed =
      repeatStart setup attempt least most length rounds children consumed := by
  induction rounds generalizing children consumed with
  | zero => rfl
  | succ rounds ih =>
    rw [repeatStart, repeatStart]
    simp only [ih]

theorem read_with_checking {attempt : List Frame → ElementId → DecodeM μ Value}
    {frames : List Frame} {id : ElementId} {σ : State μ}
    (h : ∀ {frame declared ρ υ v}, Opening setup frames id σ frame declared ρ →
      readKind setup (attempt (frame :: frames)) frame (frame :: frames) id declared ρ =
        (.ok v,υ) → v.check setup.grammar = .ok () ∧ υ.source.position = v.finish) :
    readWith (setup.checking check) attempt frames id σ = readWith setup attempt frames id σ := by
  have hlength : byteLength (setup.checking check) frames id = byteLength setup frames id := rfl
  have hrecord : recordValue (setup.checking check) id = recordValue setup id := rfl
  unfold readWith
  simp only [bind_run, cursor_run, limit_of_run, log_run, outcome_run, hlength, hrecord,
    read_kind_checking]
  rcases hb : byteLength setup frames id σ with ⟨fault | declared, ρ⟩
  · rfl
  · dsimp only
    have hopen : Opening setup frames id σ
        (Frame.opened id σ.source.position (limitAt frames σ) declared) declared
        (ρ.noted (.reading σ.source.position id)) :=
      ⟨rfl,⟨ρ,hb⟩,((byte_length_quiet setup frames id).of_run hb).trans (State.noted_quiet ρ _)⟩
    rcases hk : readKind setup
      (attempt (Frame.opened id σ.source.position (limitAt frames σ) declared :: frames))
      (Frame.opened id σ.source.position (limitAt frames σ) declared)
      (Frame.opened id σ.source.position (limitAt frames σ) declared :: frames) id declared
      (ρ.noted (.reading σ.source.position id)) with ⟨fault | v, υ⟩
    · rfl
    · obtain ⟨hv,hp⟩ := h hopen hk
      have hp' : (υ.noted (.read σ.source.position v.element v.offset v.length)).source.position =
          v.finish := hp
      have hpass : checkRead (setup.checking check) v
          (υ.noted (.read σ.source.position v.element v.offset v.length)) = (.ok ⟨⟩,_) :=
        check_read_pass hv hp'
      simp only [bind_run, log_run]
      rw [hpass, check_read_pass hv hp']

/-- Checking the values as they are read makes no difference to what is read. -/
theorem read_element_checking {setup : Setup μ} (hg : setup.grammar.Linked) (check : Bool)
    (room : Nat) (frames : List Frame) (id : ElementId) (σ : State μ) :
    readElement (setup.checking check) room frames id σ = readElement setup room frames id σ := by
  induction room generalizing frames id σ with
  | zero => rfl
  | succ room ih =>
    have hattempt : readElement (setup.checking check) room = readElement setup room := by
      funext frames id σ
      exact ih frames id σ
    show readWith (setup.checking check) (readElement (setup.checking check) room) frames id σ =
      readWith setup (readElement setup room) frames id σ
    rw [hattempt]
    refine read_with_checking setup check fun {frame declared ρ υ v} hopen hread => ?_
    obtain ⟨hstart,hle,-⟩ := hopen.bounds
    obtain ⟨hv,hp⟩ := reads_placed hg (read_element_placed hg) (hopen.position.trans hstart.symm)
      hle (read_kind_ok (read_element_reader setup room _) hread)
    exact ⟨hv.valid v (self_mem_preorder v),hp⟩

theorem decode_element_checking {setup : Setup μ} (hg : setup.grammar.Linked) (check : Bool)
    (id : ElementId) (offset : Nat) (σ : State μ) :
    decodeElement (setup.checking check) id offset σ = decodeElement setup id offset σ :=
  read_element_checking hg check _ _ _ _

theorem read_root_checking {setup : Setup μ} (hg : setup.grammar.Linked) (check : Bool)
    (length : Nat) : readRoot (setup.checking check) length = readRoot setup length := by
  have hread : readInRoot (setup.checking check) length setup.grammar.start =
      readInRoot setup length setup.grammar.start := by
    funext σ
    exact read_element_checking hg check _ _ _ σ
  have hstart : (setup.checking check).grammar = setup.grammar := rfl
  unfold readRoot
  simp only [repeat_start_checking, hstart, hread]
  rfl

theorem check_root_pass (setup : Setup μ) {v : Value} (hv : v.validate setup.grammar = .ok ())
    (s : State μ) : checkRoot setup v s = (.ok v,s) := by
  unfold checkRoot
  rw [hv]
  split <;> rfl

/-- Checking the values of a source makes no difference to what is read. It makes one to the result
only where the root is invalid. -/
theorem decode_checking {setup : Setup μ} (hg : setup.grammar.Linked) (check : Bool)
    (σ : State μ) :
    (decode (setup.checking check) σ).2 = (decode setup σ).2 ∧
      ((∀ v, (decode (setup.checking false) σ).1 = .ok v →
        (setup.grammar.kind Grammar.root).isComposite ∨ v.children = []) →
      (decode (setup.checking check) σ).1 = (decode setup σ).1) := by
  have heq : ∀ check, decode (setup.checking check) σ =
      (readRoot setup σ.source.length >>= checkRoot (setup.checking check))
        ((σ.begun setup 0).noted (.decoding σ.source.length)) := by
    intro check
    rw [decode_eq, read_root_checking hg]
    rfl
  rw [heq, heq, decode_eq, bind_run, bind_run, bind_run]
  rcases hr : readRoot setup σ.source.length
    ((σ.begun setup 0).noted (.decoding σ.source.length)) with ⟨fault | v, τ⟩
  · exact ⟨rfl,fun _ => rfl⟩
  · refine ⟨(check_root_state _ v τ).trans (check_root_state setup v τ).symm,fun hroot => ?_⟩
    have hv := (read_root_shape hg hr).1.mpr (hroot v rfl)
    have hpass := check_root_pass (setup.checking check) hv τ
    exact congrArg Prod.fst (hpass.trans (check_root_pass setup hv τ).symm)

end

/-- A value that is decoded is valid, its leaves follow each other without gap or overlap from its
start to its end, and the cursor is left behind it. Nothing of this depends on whether values are
checked as they are read, and neither does anything else that comes of a decode. Only the root of
a grammar whose own element was replaced by one that can have no children is invalid, where it
has some; it is then refused if it is checked. -/
theorem decoded_shape {authored : Grammar} {setup : Setup μ}
    (hg : authored.resolve = .ok setup.grammar) (σ : State μ) :
    (∀ id offset v τ, decodeElement setup id offset σ = (.ok v,τ) →
      v.validate setup.grammar = .ok () ∧ Tiles v.offset v.leaves v.finish ∧
        τ.source.position = v.finish) ∧
    (∀ v τ, decode setup σ = (.ok v,τ) →
      (v.validate setup.grammar = .ok () ↔
        (setup.grammar.kind Grammar.root).isComposite ∨ v.children = []) ∧
      Tiles v.offset v.leaves v.finish ∧ τ.source.position = v.finish) ∧
    (∀ check id offset,
      decodeElement (setup.checking check) id offset σ = decodeElement setup id offset σ) ∧
    (∀ check, (decode (setup.checking check) σ).2 = (decode setup σ).2 ∧
      ((∀ v, (decode (setup.checking false) σ).1 = .ok v →
        (setup.grammar.kind Grammar.root).isComposite ∨ v.children = []) →
      (decode (setup.checking check) σ).1 = (decode setup σ).1)) := by
  have hl := Grammar.resolve_linked hg
  refine ⟨?_,?_,fun check id offset => decode_element_checking hl check id offset σ,
    fun check => decode_checking hl check σ⟩
  · intro id offset v τ h
    obtain ⟨ρ,-,hread⟩ := decode_element_ok h
    obtain ⟨hv,hp⟩ := read_element_placed hl hread
    exact ⟨validate_ok.mpr hv.valid,leaves_tile hv.tiled,hp⟩
  · intro v τ h
    obtain ⟨ρ,-,hread⟩ := decode_ok h
    obtain ⟨hv,ht,hp⟩ := read_root_shape hl hread
    exact ⟨hv,leaves_tile ht,hp⟩

def words : Grammar :=
  ((Grammar.new "words").add
    (((Element.binary "word").withLength (.literal 1)).withMost .unlimited)).setStart (.index 1)

def replacedWords : Grammar :=
  words.replace Grammar.root (Element.text "words" (some .zeroTerminated))

def trial (authored : Grammar) (check : Bool) : Setup Unit :=
  Setup.checking (Setup.plain authored) check

theorem words_decoded_shape :
    ∃ v τ, decode (trial words false) (bytesState #[7, 8]) = (.ok v,τ) ∧
      v.validate words.link.1 = .ok () ∧ Tiles v.offset v.leaves v.finish ∧
      τ.source.position = v.finish ∧
      decode (trial words true) (bytesState #[7, 8]) = (.ok v,τ) := by
  have hg : words.resolve = .ok (trial words false).grammar :=
    Grammar.resolve_sound (by decide +kernel)
  have hroot : ((trial words false).grammar.kind Grammar.root).isComposite := by decide +kernel
  obtain ⟨v,τ,hv⟩ := run_ok (r := decode (trial words false) (bytesState #[7, 8]))
    (by decide +kernel)
  obtain ⟨-,hdecode,-,hcheck⟩ := decoded_shape hg (bytesState #[7, 8])
  obtain ⟨hvalid,htiles,hpos⟩ := hdecode v τ hv
  obtain ⟨hstate,hresult⟩ := hcheck true
  have hsame := Prod.ext (hresult fun _ _ => .inl hroot) hstate
  exact ⟨v,τ,hv,hvalid.mpr (.inl hroot),htiles,hpos,hsame.trans hv⟩

/-- Where the grammar's own element was replaced, a decode that checks nothing returns an invalid
value, and one that checks fails. -/
theorem replaced_words_invalid :
    replacedWords.resolve = .ok replacedWords.link.1 ∧
      (∃ v τ, decode (trial replacedWords false) (bytesState #[7, 8]) = (.ok v,τ) ∧
        ¬v.validate replacedWords.link.1 = .ok ()) ∧
      ∃ fault τ, decode (trial replacedWords true) (bytesState #[7, 8]) = (.error fault,τ) := by
  refine ⟨Grammar.resolve_sound (by decide +kernel),?_,run_fault (by decide +kernel)⟩
  obtain ⟨v,τ,hv⟩ := run_ok (r := decode (trial replacedWords false) (bytesState #[7, 8]))
    (by decide +kernel)
  have hinvalid : (decode (trial replacedWords false) (bytesState #[7, 8])).1.toOption.all
    (fun v => (v.validate replacedWords.link.1).isOk) = false := by decide +kernel
  refine ⟨v,τ,hv,fun hvalid => ?_⟩
  rw [hv] at hinvalid
  simp only [Except.toOption, Option.all_some, hvalid] at hinvalid
  cases hinvalid

end ByteGrammar
