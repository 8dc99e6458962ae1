import ByteGrammar.Grammar.Basic
import ByteGrammar.Resolved.Basic

/-!
# Checks of resolved grammars

Element numbers are distinct, 0 aside. Numbers, binaries, customs, offsets and strings of fixed
length have a length.
-/

set_option autoImplicit false

namespace ByteGrammar.Resolved

def needsLength (g : Resolved) (id : ElementId) : Bool :=
  match g.kind id with
  | .number _ | .binary _ | .custom _ | .offset _ => true
  | .text _ => (g.attributesOf id).textKind == .fixedLength
  | _ => false

def lengthFaults (g : Resolved) (id : ElementId) : List GrammarFault :=
  if g.needsLength id && (g.attributesOf id).length.isNone then [.missingLength (g.label id)]
  else []

def checkElements (g : Resolved) : List ElementId → List ElementId → List GrammarFault
  | _, [] => []
  | seen, id :: rest =>
    let number := (g.element id).id
    if number = 0 then g.lengthFaults id ++ g.checkElements seen rest
    else
      match seen.find? fun first => (g.element first).id == number with
      | some first =>
        .duplicateId number (g.label first) (g.label id) ::
          (g.lengthFaults id ++ g.checkElements seen rest)
      | none => g.lengthFaults id ++ g.checkElements (id :: seen) rest

def check (g : Resolved) : List GrammarFault := g.checkElements [] (g.grammar.walk.map Prod.fst)

end ByteGrammar.Resolved
