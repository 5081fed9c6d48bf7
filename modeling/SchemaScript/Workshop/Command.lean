import SchemaScript.Workshop.Drain

/-!
# Commands and scripts

Everything that can be done in a workshop, as data.  A script is a list of actions:
it writes lines and blocks on the page on which it runs, and carries out commands in
the same workshop.

A script that renders runs the scripts that wait, itself among them as long as it
waits, so renderings inside renderings are allowed down to a fixed depth only.

## Main definitions

* `Action`, `Command` — scripts and commands.
* `Answer` — what a command answers.
* `Workshop.perform` — carries out a command.
-/

namespace SchemaScript

/-- Where the schema of a command comes from. -/
inductive Source
  /-- It is written in the command. -/
  | given (schema : Json)
  /-- It is what is defined under a name. -/
  | defined (name : String)

mutual

/-- A step of a script. -/
inductive Action
  | line (text : String)
  | openBlock (header : String)
  | closeBlock (footer : String)
  /-- Carries out a command and takes no notice of its answer. -/
  | command (c : Command)

/-- A command. -/
inductive Command
  /-- Emits a schema under a type name, at a place. -/
  | emit (typeName : String) (source : Source) (fqn : Option String)
  /-- Emits a definition as itself. -/
  | emitNamed (name : String)
  /-- Declares an enum for a schema, whatever its kind. -/
  | emitEnum (typeName : String) (schema : Json) (fqn : String)
  /-- Puts a declaration made by hand in the queue, in the place of a waiting one. -/
  | takeOver (name : String) (script : Option (List Action))
  /-- Puts a declaration without a script in the queue. -/
  | register (d : Declaration Empty) (replace : Bool)
  /-- Puts a declaration with a script in the queue. -/
  | registerScript (name fqn : String) (description : Json) (script : List Action) (replace : Bool)
  /-- Defines a name. -/
  | define (name : String) (source : Source)
  /-- Makes a name stand for another one. -/
  | addAlias (name target : String)
  /-- Asks whether an exclusion hits a name. -/
  | excluded (fqn : String)
  /-- Asks for the defined names. -/
  | names
  /-- Asks whether a name is waiting, written, or either. -/
  | state (name : String)
  /-- Asks for the waiting declarations. -/
  | dump
  /-- Asks for the position behind the last waiting declaration. -/
  | checkpoint
  /-- Withdraws what came after a position. -/
  | rollback (position : Int)
  /-- Writes the waiting declarations on a new page. -/
  | render (indent : Option String)
  /-- Writes the waiting declarations on the shared page. -/
  | renderShared
  /-- Asks for the text of the shared page. -/
  | shared

end

instance : Inhabited Action := ⟨.line ""⟩

instance : Inhabited Command := ⟨.names⟩

/-- The actions of a script. -/
abbrev Script := List Action

/-- What a command answers. -/
inductive Answer
  | nothing
  | flag (b : Bool)
  | flags (bs : List Bool)
  | count (n : Nat)
  | text (s : String)
  | names (ss : List String)
  | type (t : TypeExpr)
  | declarations (ds : List (Declaration Script))

/-! ### Counting scripts -/

mutual

/-- The scripts that a list of actions holds, itself included. -/
def scriptWeight : List Action → Nat
  | [] => 1
  | a :: as => actionWeight a + scriptWeight as

/-- The scripts that an action holds. -/
def actionWeight : Action → Nat
  | .line _ => 0
  | .openBlock _ => 0
  | .closeBlock _ => 0
  | .command c => commandWeight c

/-- The scripts that a command holds. -/
def commandWeight : Command → Nat
  | .takeOver _ script => optionWeight script
  | .registerScript _ _ _ script _ => scriptWeight script
  | _ => 0

/-- The scripts of a declaration made by hand. -/
def optionWeight : Option (List Action) → Nat
  | none => 0
  | some script => scriptWeight script

end

namespace Workshop

/-! ### Carrying out -/

/-- Carries out an action on a page. -/
def act (perform : Command → Working Script Answer) (on : Surface) : Action → Working Script Unit
  | .line text => writing on (Page.line text)
  | .openBlock header => writing on (Page.openBlock header)
  | .closeBlock footer => writing on (Page.closeBlock footer)
  | .command c => do
    let _ ← perform c

/-- Runs a script on a page. -/
def runScript (perform : Command → Working Script Answer) (on : Surface) :
    Script → Working Script Unit
  | [] => pure ()
  | a :: as => do
    act perform on a
    runScript perform on as

/-- The schema of a command as one at hand. -/
def nodeOf (r : Resolver Script) : Source → Node
  | .given schema => .inline schema
  | .defined name => r.definitions.node name

/-- Carries out a command, given how scripts carry out theirs. -/
def performStep (perform : Command → Working Script Answer) : Command → Working Script Answer
  | .emit typeName source fqn => resolving do
    let r ← get
    return .type (← Resolver.emit typeName (nodeOf r source) fqn)
  | .emitNamed name => resolving do return .type (← Resolver.emitNamed name)
  | .emitEnum typeName schema fqn => resolving do
    return .type (← Resolver.emitEnum typeName schema fqn)
  | .takeOver name script => resolving do
    Resolver.enqueueCustom name script
    return .nothing
  | .register d replace => resolving do
    return .flag (← Resolver.enqueue (d.map Empty.elim) replace)
  | .registerScript name fqn description script replace => resolving do
    return .flag (← Resolver.enqueue ⟨name, fqn, description, none, .custom (some script)⟩ replace)
  | .define name source => resolving do
    let r ← get
    Resolver.redefine fun ds => ds.share name (nodeOf r source)
    return .nothing
  | .addAlias name target => resolving do
    Resolver.redefine fun ds => ds.addAlias name target
    return .nothing
  | .excluded fqn => do return .flag ((← get).resolver.isExcluded fqn)
  | .names => do return .names (← get).resolver.definitions.names
  | .state name => do
    let q := (← get).resolver.queue
    return .flags [q.isWaiting name, q.isWritten name, q.isKnown name]
  | .dump => do return .declarations (← get).resolver.queue.declarations
  | .checkpoint => do return .count (← get).resolver.queue.checkpoint
  | .rollback position => resolving do
    let r ← get
    return .names (← Resolver.withdraw (r.queue.position position))
  | .render indent => do
    return .text (← render scriptWeight (runScript perform .sheet) indent)
  | .renderShared => do
    drain scriptWeight (runScript perform .shared) .shared
    return .text (← get).shared.text
  | .shared => do return .text (← get).shared.text

/-- Carries out a command with renderings inside one another down to a depth. -/
def performWith : Nat → Command → Working Script Answer
  | 0 => fun _ => throw .nestedTooDeeply
  | n + 1 => performStep (performWith n)

/-- How deeply renderings can stand inside one another. -/
def nestingLimit : Nat := 128

/-- Carries out a command. -/
def perform : Command → Working Script Answer := performWith nestingLimit

end Workshop
end SchemaScript
