import ByteGrammar.Script.Program
import ByteGrammar.Text.Characters
import ByteGrammar.Text.Quoted

/-!
# Command scripts

A small language of commands separated by semicolons, and the runtime that runs them. Commands
set the dynamic byte order, or note what they see in the runtime's memory.
-/

set_option autoImplicit false

namespace ByteGrammar

inductive Subject where
  | last
  | current
  | named (name : String)
  deriving DecidableEq, Repr

inductive Command where
  | setOrder (order : ByteOrder)
  | order
  | element
  | grammar
  | value (subject : Subject)
  | number (subject : Subject)
  | unsigned (subject : Subject)
  | signed (subject : Subject)
  | bytes (subject : Subject)
  | attempt (subject : Subject)
  | follow (subject : Subject)
  | fail (text : String)
  | unknown (command : String)
  deriving DecidableEq, Repr

inductive Note where
  | text (text : String)
  | order (order : ByteOrder)
  | value (name : String) (v : Value)
  | absent
  | integer (n : Int)
  | bytes (bytes : List UInt8)
  | fault (fault : EvalFault)

def Subject.ofText (text : String) : Subject :=
  if text == "@last" then .last
  else if text == "@current" then .current
  else .named text

def Subject.find? (view : View) : Subject → Option Value
  | last => view.last?
  | current => view.current
  | named name => view.named? name

def pieces (separator : Char) : List Char → List (List Char)
  | [] => [[]]
  | c :: rest =>
    if c == separator then [] :: pieces separator rest
    else
      match pieces separator rest with
      | piece :: later => (c :: piece) :: later
      | [] => [[c]]

namespace Command

def ofText (text : List Char) : Command :=
  let argument := String.ofList ((text.dropWhile (· != ' ')).drop 1)
  let subject := Subject.ofText argument
  match String.ofList (text.takeWhile (· != ' ')) with
  | "big" => setOrder .big
  | "little" => setOrder .little
  | "endian" => order
  | "element" => element
  | "grammar" => grammar
  | "last" => value .last
  | "current" => value .current
  | "value" => value (.named argument)
  | "number" => number subject
  | "unsigned" => unsigned subject
  | "signed" => signed subject
  | "bytes" => bytes subject
  | "try" => attempt subject
  | "dyn" => follow subject
  | "fail" => fail argument
  | _ => unknown (String.ofList text)

def ofScript (text : String) : List Command :=
  (((pieces ';' text.toList).map Text.trimmed).filter (!·.isEmpty)).map ofText

def withNumber (view : View) (subject : Subject)
    (use : Except EvalFault MachineInt → Program (Except String (List Note))) :
    Program (Except String (List Note)) :=
  match subject.find? view with
  | none => .done (.ok [.absent])
  | some v => .number v use

def orFail (use : MachineInt → Program (Except String (List Note))) :
    Except EvalFault MachineInt → Program (Except String (List Note))
  | .ok i => use i
  | .error fault => .done (.error fault.message)

def perform (view : View) : Command → Program (Except String (List Note))
  | setOrder o => .setOrder o (.done (.ok []))
  | order => .order fun o => .done (.ok [.order o])
  | element => .done (.ok [.text (view.grammar.label view.element)])
  | grammar => .done (.ok [.text view.grammar.name])
  | value subject =>
    match subject.find? view with
    | none => .done (.ok [.absent])
    | some v => .done (.ok [.value (v.name view.grammar) v])
  | number subject =>
    withNumber view subject (orFail fun i => .done (.ok [.integer i.value]))
  | unsigned subject =>
    withNumber view subject (orFail fun i => .done (.ok [.integer i.toUnsigned]))
  | signed subject =>
    withNumber view subject (orFail fun i => .done (.ok [.integer i.toSigned]))
  | bytes subject =>
    match subject.find? view with
    | none => .done (.ok [.absent])
    | some v => .bytes v fun
      | .ok found => .done (.ok [.bytes found])
      | .error fault => .done (.error fault.message)
  | attempt subject =>
    withNumber view subject fun
      | .ok i => .done (.ok [.integer i.value])
      | .error fault => .done (.ok [.fault fault])
  | follow subject =>
    withNumber view subject (orFail fun i =>
      .setOrder (if i.toUnsigned = 0 then .little else .big) (.done (.ok [])))
  | fail text => .done (.error text)
  | unknown command => .done (.error ("unknown command " ++ Text.quote command))

def performAll (view : View) :
    List Command → Array Note → Program (Except String Unit × Array Note)
  | [], notes => .done (.ok (), notes)
  | command :: rest, notes =>
    (command.perform view).bind fun
      | .ok more => performAll view rest (notes ++ more)
      | .error reason => .done (.error reason, notes)

def runtime : Runtime (Array Note) where
  run script view notes := performAll view (ofScript script.text) notes

end Command
end ByteGrammar
