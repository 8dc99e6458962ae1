import ByteGrammar.Proofs.Decode.Content
import ByteGrammar.Proofs.Text.Lines
import ByteGrammar.Proofs.Value.Addresses

/-!
# The lines of rendered trees

A decoded tree is rendered as one line for each of its nodes, in depth-first order, as long as
neither the names of the grammar nor the decoded strings hold a line feed. Each child is rendered
apart and trimmed before it becomes part of the text of its parent; trimming takes at most the
blanks behind the last of its lines, and never what tells where the line belongs.
-/

set_option autoImplicit false

namespace ByteGrammar

open Stepwise DecodeM Source Value Text

variable {μ : Type}

theorem one_line_nat (n : Nat) : OneLine (toString n) := by
  intro h
  have hdigit := Nat.isDigit_of_mem_toDigits (b := 10) (n := n) (by decide) (by decide)
    (by simpa using h)
  contradiction

theorem one_line_int (n : Int) : OneLine (toString n) := by
  have htext : toString n = n.repr := rfl
  rw [htext, Int.repr_eq_if]
  split
  · exact one_line_nat _
  · simpa using ⟨by decide,one_line_nat _⟩

theorem fixed_digits_one_line {base : Nat} (hpos : 0 < base) (hbase : base ≤ 16) (count n : Nat) :
    '\n' ∉ fixedDigits base count n := by
  have hdigit : ∀ d < 16, '\n' ≠ digitChar d := by decide
  induction count generalizing n with
  | zero => simp [fixedDigits]
  | succ count ih =>
    have hlast := hdigit (n % base) (Nat.lt_of_lt_of_le (Nat.mod_lt n hpos) hbase)
    simp [fixedDigits, ih, hlast]

theorem hex_one_line (bytes : List UInt8) : OneLine (hexOf bytes) := by
  simp [OneLine, hexOf, fixed_digits_one_line]

theorem short_hex_one_line (bytes : List UInt8) : OneLine (shortHex bytes) := by
  unfold shortHex
  split
  · exact hex_one_line _
  · simpa [hex_one_line] using (by decide : OneLine "...")

theorem display_one_line (i : MachineInt) (radix : Radix) (width : Nat) :
    OneLine (i.display radix width) := by
  cases radix with
  | decimal => exact one_line_int _
  | hex => simp [MachineInt.display, OneLine, fixed_digits_one_line]
  | binary => simp [MachineInt.display, OneLine, fixed_digits_one_line]

def Kind.valueNames : Kind → List String
  | .number s => s.values.map Fixed.name
  | .text s => s.values.map Fixed.name
  | .binary s => s.values.map Fixed.name
  | _ => []

def Resolved.NamesInLine (g : Resolved) : Prop :=
  ∀ node ∈ g.grammar.nodes, OneLine node.element.name ∧
    ∀ name ∈ node.element.kind.valueNames, OneLine name

instance : DecidablePred Resolved.NamesInLine := fun g =>
  inferInstanceAs (Decidable (∀ node ∈ g.grammar.nodes, OneLine node.element.name ∧
    ∀ name ∈ node.element.kind.valueNames, OneLine name))

def Value.string? (encodings : Text.Encodings) (g : Resolved) (data : Array UInt8) (v : Value) :
    Option String :=
  match g.kind v.element with
  | .text _ => some ((g.attributesOf v.element).textOf encodings (v.bytesIn data))
  | _ => none

section
variable {encodings : Text.Encodings} {g : Resolved} {data : Array UInt8} {v : Value}

theorem Resolved.NamesInLine.known (h : g.NamesInLine) {id : ElementId} {e : Element}
    (he : g.element? id = some e) :
    OneLine e.name ∧ ∀ name ∈ e.kind.valueNames, OneLine name := by
  obtain ⟨node,hnode,rfl⟩ := Option.map_eq_some_iff.mp he
  exact h node (Array.mem_of_getElem? hnode)

theorem Resolved.NamesInLine.element (h : g.NamesInLine) (id : ElementId) :
    OneLine (g.element id).name ∧ ∀ name ∈ (g.kind id).valueNames, OneLine name := by
  have helement : g.element id = (g.element? id).getD (.grammar "") := rfl
  rw [Resolved.kind, helement]
  cases he : g.element? id with
  | none => decide
  | some e => exact h.known he

theorem Resolved.NamesInLine.name (h : g.NamesInLine) (id : ElementId) :
    OneLine (g.nameOf id) := by
  unfold Resolved.nameOf
  cases he : g.element? id with
  | none => decide
  | some e => exact (h.known he).1

theorem matched_name_mem {α : Type} {values : List (Fixed α)} {name : String}
    (h : v.matchedName? values = some name) : name ∈ values.map Fixed.name := by
  obtain ⟨i,-,hi⟩ := Option.bind_eq_some_iff.mp h
  obtain ⟨fixed,hfixed,rfl⟩ := Option.map_eq_some_iff.mp hi
  exact List.mem_map_of_mem (List.mem_of_getElem? hfixed)

theorem values_names (g : Resolved) (id : ElementId) :
    (g.numberValues id).map Fixed.name ⊆ (g.kind (g.attributesOf id).valuesFrom).valueNames ∧
      (g.binaryValues id).map Fixed.name ⊆
        (g.kind (g.attributesOf id).valuesFrom).valueNames := by
  unfold Resolved.numberValues Resolved.binaryValues
  cases g.kind (g.attributesOf id).valuesFrom <;> simp [Kind.valueNames]

/-- The fixed value that a node was matched with has a name without line feeds, whichever element
lists it. -/
theorem Resolved.NamesInLine.matched (h : g.NamesInLine) {α : Type} {values : List (Fixed α)}
    {id : ElementId} (hvalues : values.map Fixed.name ⊆ (g.kind id).valueNames) {name : String}
    (hname : v.matchedName? values = some name) : OneLine name :=
  (h.element id).2 name (hvalues (matched_name_mem hname))

theorem integer_text_one_line (h : g.NamesInLine) (bytes : List UInt8) :
    OneLine (v.integerText g bytes) := by
  unfold integerText
  extract_lets attributes signed text
  have htext : OneLine text := by
    unfold text
    split
    · exact display_one_line _ _ _
    · exact hex_one_line _
  cases hname : v.matchedName? (g.numberValues v.element) with
  | none => exact htext
  | some name =>
    dsimp only
    split
    · exact htext
    · have hone := h.matched (values_names g v.element).1 hname
      simp only [one_line_append]
      exact ⟨⟨⟨htext,by decide⟩,hone⟩,by decide⟩

theorem binary_text_one_line (h : g.NamesInLine) (bytes : List UInt8) :
    OneLine (v.binaryText g bytes) := by
  unfold binaryText
  cases hname : v.matchedName? (g.binaryValues v.element) with
  | none =>
    simp only [one_line_append]
    exact ⟨⟨⟨short_hex_one_line _,by decide⟩,one_line_nat _⟩,by decide⟩
  | some name =>
    have hone := h.matched (values_names g v.element).2 hname
    simp only [one_line_append]
    exact ⟨⟨⟨short_hex_one_line _,by decide⟩,hone⟩,by decide⟩

end

def Kind.isReadable : Kind → Bool
  | .grammar | .grammarRef _ => false
  | _ => true

/-- What is known of a node below the root when it is rendered: its bytes are there, its kind is
one that is read, it has children only if its kind may, and a string has no line feed. -/
structure Presentable (encodings : Text.Encodings) (g : Resolved) (data : Array UInt8) (v : Value) :
    Prop where
  covered : v.Covered data
  readable : (g.kind v.element).isReadable
  childless : (g.kind v.element).isComposite = false → v.children = []
  string : ∀ text ∈ v.string? encodings g data, OneLine text

section
variable {encodings : Text.Encodings} {g : Resolved} {data : Array UInt8} {v : Value}

theorem render_leaf_one_line (hg : g.NamesInLine) (h : Presentable encodings g data v)
    (hleaf : (g.kind v.element).isComposite = false) (depth : Nat) :
    ∃ text, Gives data (v.renderAt encodings g depth) text ∧ OneLine text := by
  have hread := h.readable
  have hstring := h.string
  rw [render_at_eq, renderWith]
  cases hk : g.kind v.element with
  -- line feeds come with the kinds that have children, or from the name of a file, never read
  | grammar => simp [hk, Kind.isComposite] at hleaf
  | struct settings => simp [hk, Kind.isComposite] at hleaf
  | structRef link => simp [hk, Kind.isComposite] at hleaf
  | grammarRef file => simp [hk, Kind.isReadable] at hread
  | number settings =>
    exact ⟨_,map_gives _ (content_gives h.covered),integer_text_one_line hg _⟩
  | offset settings =>
    exact ⟨_,map_gives _ (content_gives h.covered),integer_text_one_line hg _⟩
  | text settings =>
    exact ⟨_,map_gives _ (content_gives h.covered),hstring _ (by simp [Value.string?, hk])⟩
  | binary settings =>
    exact ⟨_,map_gives _ (content_gives h.covered),binary_text_one_line hg _⟩
  | custom script =>
    exact ⟨_,map_gives _ (content_gives h.covered),binary_text_one_line hg _⟩
  | padding =>
    refine ⟨_,pure_gives _,?_⟩
    simp only [one_line_append]
    exact ⟨⟨by decide,one_line_nat _⟩,by decide⟩
  | script script => exact ⟨_,pure_gives _,by decide⟩
  | scriptElement script => exact ⟨_,pure_gives _,by decide⟩

end

def Value.heading (g : Resolved) (depth position : Nat) (v : Value) : String :=
  String.ofList (List.replicate (2 * depth) ' ') ++ "[" ++ toString position ++ "] " ++
    v.name g ++ ":"

def Value.title (g : Resolved) (v : Value) : String :=
  let counted := "(" ++ toString v.children.length ++ " children)"
  match g.kind v.element with
  | .grammar => (g.element v.element).name ++ ": " ++ counted
  | _ => counted

def HeadedRow (g : Resolved) (node : List Nat × Value) (row : List Char) : Prop :=
  '\n' ∉ row ∧ ∃ above i, node.1 = above ++ [i] ∧
    (node.2.heading g (above.length + 1) i).toList <+: row

section
variable {encodings : Text.Encodings} {g : Resolved} {data : Array UInt8} {node : List Nat × Value}
  {row : List Char}

theorem heading_concat (g : Resolved) (depth position : Nat) (v : Value) :
    ∃ before, (v.heading g depth position).toList = before ++ [':'] := by
  rw [heading, String.toList_append]
  exact ⟨_,rfl⟩

theorem heading_one_line (hg : g.NamesInLine) (depth position : Nat) (v : Value) :
    OneLine (v.heading g depth position) := by
  have hblanks : OneLine (String.ofList (List.replicate (2 * depth) ' ')) := by
    simp [OneLine]
  simp only [heading, one_line_append]
  exact ⟨⟨⟨⟨⟨hblanks,by decide⟩,one_line_nat _⟩,by decide⟩,hg.name v.element⟩,by decide⟩

theorem HeadedRow.marked (h : HeadedRow g node row) : ∃ c ∈ row, ¬isBlank c := by
  obtain ⟨-,above,i,-,rest,rfl⟩ := h
  obtain ⟨before,hbefore⟩ := heading_concat g (above.length + 1) i node.2
  exact ⟨':',by simp [hbefore],by decide⟩

theorem HeadedRow.trimmed (h : HeadedRow g node row) : HeadedRow g node (trimRight row) := by
  obtain ⟨hline,above,i,hnode,rest,rfl⟩ := h
  refine ⟨fun hfeed => hline (trim_right_subset hfeed),above,i,hnode,?_⟩
  obtain ⟨before,hbefore⟩ := heading_concat g (above.length + 1) i node.2
  have hcolon : ¬isBlank ':' := by decide
  have hsome : ∃ c ∈ ':' :: rest, ¬isBlank c := ⟨':',List.mem_cons_self,hcolon⟩
  rw [hbefore, List.append_assoc, List.singleton_append, trim_right_append hsome,
    trim_right_cons hcolon]
  exact ⟨trimRight rest,by simp⟩

theorem indent_blanks (depth : Nat) :
    (indent depth).toList = List.replicate (2 * depth) ' ' := by
  have hlevel : "  ".toList = List.replicate 2 ' ' := rfl
  rw [indent, String.toList_join, List.flatMap_replicate, hlevel, List.flatten_replicate_replicate,
    Nat.mul_comm]

def Rowed (encodings : Text.Encodings) (g : Resolved) (data : Array UInt8) (path : List Nat)
    (v : Value) : Prop :=
  ∃ text first below, Gives data (v.renderAt encodings g path.length) text ∧
    Text.trimmed text.toList ++ ['\n'] = endRows (first :: below) ∧ '\n' ∉ first ∧
    List.Forall₂ (HeadedRow g) (addressedAll path 0 v.children) below

theorem render_all_rows (hg : g.NamesInLine) (path : List Nat) {values : List Value}
    (h : ∀ v ∈ values, ∀ path, Rowed encodings g data path v) (position : Nat) :
    ∃ text rows, Gives data (renderAll encodings g (path.length + 1) position values) text ∧
      text.toList = endRows rows ∧
      List.Forall₂ (HeadedRow g) (addressedAll path position values) rows := by
  induction values generalizing position with
  | nil => exact ⟨"",[],pure_gives "",rfl,.nil⟩
  | cons v rest ih =>
    obtain ⟨hv,hrest⟩ := List.forall_mem_cons.mp h
    obtain ⟨text,first,below,htext,htrim,hfirst,hbelow⟩ := hv (path ++ [position])
    obtain ⟨more,rows,hmore,hrows,hheaded⟩ := ih hrest (position + 1)
    have hdepth : (path ++ [position]).length = path.length + 1 := by simp
    rw [hdepth] at htext
    let heading := (v.heading g (path.length + 1) position).toList
    -- the first row of the child goes on behind its heading, and the rows below it are its own
    refine ⟨_,(heading ++ ' ' :: first) :: below ++ rows,
      bind_gives htext (bind_gives hmore (pure_gives _)),?_,?_⟩
    · have hline : (Text.trim text).toList ++ ['\n'] = first ++ '\n' :: endRows below := by
        simpa [Text.trim] using htrim
      have hwhole := congrArg (· ++ endRows rows) hline
      simpa [heading, Value.heading, indent_blanks, hrows] using hwhole
    · rw [addressedAll, addressed_from_eq]
      refine List.rel_append (.cons ⟨?_,path,position,rfl,_,rfl⟩ hbelow) hheaded
      have hheading : '\n' ∉ heading := heading_one_line hg _ _ _
      simp [hheading, hfirst]

/-- A structure is rendered as a row that counts its children and the rows of what is below it. -/
theorem render_composite_rows (hg : g.NamesInLine) (path : List Nat) {v : Value}
    (hcomp : (g.kind v.element).isComposite)
    (h : ∀ w ∈ v.children, ∀ path, Rowed encodings g data path w) :
    ∃ text below, Gives data (v.renderAt encodings g path.length) text ∧
      text.toList = endRows ((v.title g).toList :: below) ∧
      List.Forall₂ (HeadedRow g) (addressedAll path 0 v.children) below := by
  obtain ⟨lines,below,hlines,hrows,hheaded⟩ := render_all_rows hg path h 0
  rw [render_at_eq, renderWith]
  cases hk : g.kind v.element with
  | grammar =>
    refine ⟨_,below,bind_gives (bind_gives hlines (pure_gives _)) (pure_gives _),?_,hheaded⟩
    simp [title, hk, hrows]
  | struct settings =>
    refine ⟨_,below,bind_gives hlines (pure_gives _),?_,hheaded⟩
    simp [title, hk, hrows]
  | structRef link =>
    refine ⟨_,below,bind_gives hlines (pure_gives _),?_,hheaded⟩
    simp [title, hk, hrows]
  | _ => simp [hk, Kind.isComposite] at hcomp

theorem title_one_line (hg : g.NamesInLine) (v : Value) : OneLine (v.title g) := by
  have hcounted : OneLine ("(" ++ toString v.children.length ++ " children)") := by
    simp only [one_line_append]
    exact ⟨⟨by decide,one_line_nat _⟩,by decide⟩
  unfold title
  cases g.kind v.element with
  | grammar =>
    rw [one_line_append, one_line_append]
    exact ⟨⟨(hg.element v.element).1,by decide⟩,hcounted⟩
  | _ => exact hcounted

/-- Trimmed, a structure below the root keeps all its rows: the first begins with a bracket, and
the others hold a colon. -/
theorem composite_rowed (hg : g.NamesInLine) {path : List Nat} {v : Value}
    (hread : (g.kind v.element).isReadable) (hcomp : (g.kind v.element).isComposite)
    (h : ∀ w ∈ v.children, ∀ path, Rowed encodings g data path w) :
    Rowed encodings g data path v := by
  obtain ⟨text,below,htext,hrows,hheaded⟩ := render_composite_rows hg path hcomp h
  have htitle : ∃ rest, (v.title g).toList = '(' :: rest := by
    unfold title
    cases hk : g.kind v.element with
    | grammar => simp [hk, Kind.isReadable] at hread
    | _ => simp
  obtain ⟨rest,hrest⟩ := htitle
  have hbracket : ¬isBlank '(' := by decide
  have hmarked : ∀ row ∈ (v.title g).toList :: below, ∃ c ∈ row, ¬isBlank c :=
    List.forall_mem_cons.mpr ⟨⟨'(',by simp [hrest],hbracket⟩,
      rel_rows hheaded fun _ _ hrow => hrow.marked⟩
  have hfirst : ∀ c ∈ (endRows ((v.title g).toList :: below)).head?, ¬isBlank c := by
    simpa [hrest] using hbracket
  obtain ⟨first,hsub,hlast⟩ := trim_last_cons (v.title g).toList below
  refine ⟨text,first,trimLast below,htext,?_,?_,?_⟩
  · rw [hrows, trimmed_rows (List.cons_ne_nil _ _) hfirst hmarked, hlast]
  · exact fun hfeed => title_one_line hg v (hsub hfeed)
  · exact trim_last_rel (fun _ _ hrow => hrow.trimmed) hheaded

theorem leaf_rowed (hg : g.NamesInLine) {path : List Nat} {v : Value}
    (h : Presentable encodings g data v) (hleaf : (g.kind v.element).isComposite = false) :
    Rowed encodings g data path v := by
  obtain ⟨text,htext,hline⟩ := render_leaf_one_line hg h hleaf path.length
  refine ⟨text,Text.trimmed text.toList,[],htext,by simp,?_,?_⟩
  · exact fun hfeed => hline (trimmed_subset hfeed)
  · rw [h.childless hleaf]
    exact .nil

/-- By induction over the tree: what is rendered of the children is rows before it is trimmed again
as a part of what is rendered of their parent. -/
theorem rowed (hg : g.NamesInLine) {v : Value}
    (h : ∀ w ∈ v.preorder, Presentable encodings g data w) (path : List Nat) :
    Rowed encodings g data path v := by
  induction v using tree_induct generalizing path with
  | node v ih =>
    obtain ⟨hv,hbelow⟩ := forall_preorder.mp h
    cases hcomp : (g.kind v.element).isComposite with
    | false => exact leaf_rowed hg hv hcomp
    | true => exact composite_rowed hg hv.readable hcomp fun w hw path => ih w hw (hbelow w hw) path

end

/-- The lines stand for the nodes of `v`, one for each in depth-first order: the first for `v`
itself, the others for the children of nodes, each with the depth, the position and the name of its
own. -/
structure Itemized (g : Resolved) (v : Value) (lines : List String) : Prop where
  length : lines.length = v.count
  first : lines.head? = some (v.title g)
  below : ∀ k line, lines[k + 1]? = some line → ∃ above i parent w,
    v.addressed[k + 1]? = some (above ++ [i],w) ∧
    (v.outline none)[k + 1]? = some (w,above.length + 1) ∧
    v.below? above = some parent ∧ parent.children[i]? = some w ∧
    ∃ rest, line = w.heading g (above.length + 1) i ++ rest
  once : ∀ path w, v.below? path = some w → ∃! k : Nat, v.addressed[k]? = some (path,w)

theorem addressed_length (v : Value) : v.addressed.length = v.count := by
  have hlength := congrArg List.length (addressed_outline v)
  simpa [count, preorder, outline] using hlength

section
variable {encodings : Text.Encodings} {g : Resolved} {data : Array UInt8} {v : Value}

theorem itemized_of_rows {below : List (List Char)}
    (h : List.Forall₂ (HeadedRow g) (addressedAll [] 0 v.children) below) :
    Itemized g v (((v.title g).toList :: below).map String.ofList) := by
  have haddressed : v.addressed = ([],v) :: addressedAll [] 0 v.children := addressed_from_eq [] v
  constructor
  · rw [← addressed_length, haddressed, List.length_cons, h.length_eq]
    simp
  · simp
  · intro k line hline
    obtain ⟨row,hrow,rfl⟩ : ∃ row, below[k]? = some row ∧ String.ofList row = line := by
      simpa using hline
    obtain ⟨⟨path,w⟩,hnode,-,above,i,rfl,rest,hrest⟩ := rel_get h hrow
    have hplace : v.addressed[k + 1]? = some (above ++ [i],w) := by
      rw [haddressed]
      exact hnode
    have hbelow := mem_addressed.mp (List.mem_of_getElem? hplace)
    obtain ⟨parent,hparent,hchild⟩ := below_concat.mp hbelow
    refine ⟨above,i,parent,w,hplace,?_,hparent,hchild,String.ofList rest,?_⟩
    · rw [← addressed_outline, List.getElem?_map, hplace]
      simp
    · apply String.toList_injective
      simp [← hrest]
  · exact fun path w hw => addressed_once hw

/-- A tree with children or a place for them is rendered as its lines. -/
theorem render_lines (hg : g.NamesInLine) (hcomp : (g.kind v.element).isComposite)
    (h : ∀ child ∈ v.children, ∀ w ∈ child.preorder, Presentable encodings g data w) :
    ∃ text lines, Gives data (v.render encodings g) text ∧ Ruled text lines ∧
      Itemized g v lines := by
  obtain ⟨text,below,htext,hrows,hheaded⟩ := render_composite_rows hg [] hcomp
    fun child hchild path => rowed hg (h child hchild) path
  refine ⟨text,_,htext,ruled_of_rows hrows ?_,itemized_of_rows hheaded⟩
  exact List.forall_mem_cons.mpr ⟨title_one_line hg v,rel_rows hheaded fun _ _ hrow => hrow.1⟩

end

def AllReadable (g : Resolved) (v : Value) : Prop :=
  ∀ w ∈ v.preorder, (g.kind w.element).isReadable

section
variable {setup : Setup μ}

theorem reads_readable (hg : setup.grammar.Linked) {attempt : ElementId → DecodeM μ Value}
    {frame : Frame} {frames : List Frame} {id : ElementId} {declared : Option Nat} {ρ υ : State μ}
    {v : Value}
    (ih : ∀ {id σ v τ}, attempt id σ = (.ok v,τ) → AllReadable setup.grammar v)
    (h : Reads setup attempt frame frames id declared ρ v υ) : AllReadable setup.grammar v := by
  cases h with
  | leaf simple read kept =>
    refine forall_preorder_leaf ?_ read.children
    rw [read.element]
    cases hk : setup.grammar.kind id <;> simp_all [Kind.isLeaf, Kind.isReadable]
  | reference kind linked read =>
    refine forall_preorder.mpr ⟨?_,(forall_preorder.mp (ih read)).2⟩
    simp [kind, Kind.isReadable]
  | struct kind search gathered =>
    have hpadding : ∀ w ∈ _, AllReadable setup.grammar w :=
      gathered.forall_padding fun w hw => by rw [hw, hg.padding]; rfl
    have hchildren : ∀ w ∈ _, AllReadable setup.grammar w :=
      search.forall_children (fun hread => ih hread) (List.forall_mem_nil _)
    refine forall_preorder.mpr ⟨?_,List.forall_mem_append.mpr ⟨hchildren,hpadding⟩⟩
    simp [Value.spanning, kind, Kind.isReadable]

theorem read_element_readable (hg : setup.grammar.Linked) {room : Nat} {frames : List Frame}
    {id : ElementId} {σ τ : State μ} {v : Value}
    (h : readElement setup room frames id σ = (.ok v,τ)) : AllReadable setup.grammar v :=
  read_element_ok (P := fun _ _ _ v _ => AllReadable setup.grammar v)
    (fun ih _ _ _ _ _ _ _ _ _ _ reads _ => reads_readable hg ih reads) h

theorem read_root_presentable (hg : setup.grammar.Linked) {data : Array UInt8} {σ τ : State μ}
    {v : Value} (h : readRoot setup data.size σ = (.ok v,τ))
    (hstrings : ∀ w ∈ v.preorder,
      ∀ text ∈ w.string? setup.encodings setup.grammar data, OneLine text) :
    ∀ child ∈ v.children, ∀ w ∈ child.preorder,
      Presentable setup.encodings setup.grammar data w := by
  obtain ⟨ρ,most,children,consumed,υ,-,hrounds,rfl,-,-⟩ := read_root_ok h
  have hvalid : ∀ child ∈ children.toList, ∀ w ∈ child.preorder,
      w.check setup.grammar = .ok () := hrounds.forall_children
    (fun hread => (read_element_placed hg hread).1.valid) (List.forall_mem_nil _)
  have hreadable : ∀ child ∈ children.toList, AllReadable setup.grammar child :=
    hrounds.forall_children (read_element_readable hg) (List.forall_mem_nil _)
  intro child hchild w hw
  have hnode := mem_preorder.mpr (.inr ⟨child,hchild,hw⟩)
  refine ⟨read_root_covered hg h w hnode,hreadable child hchild w hw,fun hleaf => ?_,
    hstrings w hnode⟩
  obtain ⟨-,hnone | ⟨hcomp,-⟩⟩ := check_ok.mp (hvalid child hchild w hw)
  · exact hnone
  · rw [hleaf] at hcomp
    contradiction

end

/-- A tree that is decoded over bytes in memory is rendered as one line for each of its nodes, in
depth-first order, if no name of the grammar and no decoded string holds a line feed. The root's
own element has to be of a kind that has children, as the grammar's own is. -/
theorem rendered_in_lines {authored : Grammar} {setup : Setup μ}
    (hg : authored.resolve = .ok setup.grammar) (hnames : setup.grammar.NamesInLine)
    (hroot : (setup.grammar.kind Grammar.root).isComposite) {σ τ : State μ} {v : Value}
    (hσ : σ.source.InMemory) (h : decode setup σ = (.ok v,τ))
    (hstrings : ∀ w ∈ v.preorder,
      ∀ text ∈ w.string? setup.encodings setup.grammar σ.source.data, OneLine text) :
    ∃ text lines, State.render setup v τ = (.ok text,τ) ∧
      Gives σ.source.data (v.render setup.encodings setup.grammar) text ∧ Ruled text lines ∧
      Itemized setup.grammar v lines := by
  have hl := Grammar.resolve_linked hg
  obtain ⟨ρ,hρ,hread⟩ := decode_ok h
  obtain ⟨hτ,-⟩ := read_root_grounded hl hread (State.Over.later ⟨hσ,rfl⟩ hρ.reader)
  have hcomp : (setup.grammar.kind v.element).isComposite := by
    rw [read_root_element hread]
    exact hroot
  rw [hσ.length] at hread
  obtain ⟨text,lines,htext,hruled,hitems⟩ :=
    render_lines hnames hcomp (read_root_presentable hl hread hstrings)
  exact ⟨text,lines,render_run htext hτ,htext,hruled,hitems⟩

def memos : Grammar :=
  let g := (Grammar.new "memos").add ((Element.struct "memo").withLeast (.literal 0))
  let g := (g.addChildren 1 [(Element.number "tag").withLength (.literal 1),
    Element.struct "body"]).toOption.getD g
  let g := (g.addChild 3 (Element.text "note" (some .zeroTerminated))).toOption.getD g
  g.setStart (.index 1)

theorem blank_note_in_line :
    ∃ v τ text lines, decode (Setup.plain memos) (bytesState #[7, 32, 0]) =
        (.ok v,τ) ∧
      State.render (Setup.plain memos) v τ = (.ok text,τ) ∧ Ruled text lines ∧
      Itemized memos.link.1 v lines ∧ lines.length = 5 := by
  have hg : memos.resolve = .ok memos.link.1 := Grammar.resolve_sound (by decide +kernel)
  obtain ⟨v,τ,hv⟩ := run_ok
    (r := decode (Setup.plain memos) (bytesState #[7, 32, 0]))
    (by decide +kernel)
  have hfacts : (decode (Setup.plain memos)
      (bytesState #[7, 32, 0])).1.toOption.all fun v => v.count == 5 &&
        v.preorder.all fun w =>
          (w.string? Text.Encodings.common memos.link.1 #[7, 32, 0]).all (OneLine ·) := by
    decide +kernel
  rw [hv] at hfacts
  simp only [Except.toOption, Option.all_some, Bool.and_eq_true, beq_iff_eq, List.all_eq_true,
    Option.all_eq_true, decide_eq_true_eq] at hfacts
  obtain ⟨hcount,hstrings⟩ := hfacts
  obtain ⟨text,lines,hrender,-,hruled,hitems⟩ := rendered_in_lines hg (by decide +kernel)
    (by decide +kernel) (of_bytes_in_memory _) hv hstrings
  exact ⟨v,τ,text,lines,hv,hrender,hruled,hitems,hitems.length.trans hcount⟩

example :
    let ran := decode (Setup.plain memos) (bytesState #[7, 32, 0])
    ran.1.toOption.bind (fun v => (State.render (Setup.plain memos) v ran.2).1.toOption) =
      some ("memos: (1 children)\n  [0] memo: (2 children)\n    [0] tag: 7\n" ++
        "    [1] body: (1 children)\n      [0] note:\n") := by
  decide +kernel

def replacedMemos : Grammar :=
  memos.replace Grammar.root ((Element.binary "memos").withLength (.literal 1))

/-- A root that is itself a binary is rendered without a line feed, so as no line at all. -/
theorem replaced_memos_unlined :
    replacedMemos.resolve = .ok replacedMemos.link.1 ∧ replacedMemos.link.1.NamesInLine ∧
      ∃ v τ text, decode (Setup.plain replacedMemos) (bytesState #[]) =
          (.ok v,τ) ∧
        (∀ w ∈ v.preorder, w.string? Text.Encodings.common replacedMemos.link.1 #[] = none) ∧
        (State.render (Setup.plain replacedMemos) v τ).1 = .ok text ∧
        ¬∃ lines, Ruled text lines ∧ lines.length = v.count := by
  obtain ⟨v,τ,hv⟩ := run_ok
    (r := decode (Setup.plain replacedMemos) (bytesState #[]))
    (by decide +kernel)
  let ran := decode (Setup.plain replacedMemos) (bytesState #[])
  have hfacts : ran.1.toOption.all fun v => v.count == 1 &&
      (State.render (Setup.plain replacedMemos) v ran.2).1.toOption == some " (0 bytes)" &&
        v.preorder.all fun w =>
          w.string? Text.Encodings.common replacedMemos.link.1 #[] == none := by
    decide +kernel
  simp only [ran, hv, Except.toOption, Option.all_some, Bool.and_eq_true, beq_iff_eq,
    List.all_eq_true] at hfacts
  obtain ⟨⟨hcount,hrender⟩,hstrings⟩ := hfacts
  refine ⟨Grammar.resolve_sound (by decide +kernel),by decide +kernel,v,τ," (0 bytes)",hv,hstrings,
    ?_,?_⟩
  · cases hr : (State.render (Setup.plain replacedMemos) v τ).1 with
    | error fault => simp [hr] at hrender
    | ok text => simpa [hr] using hrender
  · rintro ⟨lines,hruled,hlength⟩
    have hfeeds := hruled.count_feeds
    rw [hlength, hcount] at hfeeds
    revert hfeeds
    decide

end ByteGrammar
