import Wasm.Assoc
import Wasm.Heap
import Wasm.Instance
import Wasm.Link.Error

namespace Wasm

namespace Host

structure Callable (A : Type) where
  type : FuncType
  run : List Value → A
  deriving Inhabited

/-- What supplies the imports of a module, where functions are of type `F`. Tables and memories are
supplied by address; a global is supplied by value, and made anew for each import. -/
structure Supply (F : Type) where
  func : (source name : String) → FuncType → Option F
  table : (source name : String) → TableType → Option Nat
  memory : (source name : String) → MemoryType → Option Nat
  global : (source name : String) → GlobalType → Option Value

/-- An entity that is not yet in a store. Tables and memories may begin with something else than
null references and zeros. -/
inductive Fresh (F : Type)
  | func (f : F)
  | code (type : FuncType) (inst index : Nat)
  | table (type : TableType) (slots : Array Value := #[])
  | memory (type : MemoryType) (bytes : List UInt8 := [])
  | global (type : GlobalType) (init : Value)
  | elem (refs : Array Value)
  | data (bytes : List UInt8)
  | instance_ (inst : Instance)

/-- What a host function does: a request and how to go on after it, or its result. -/
inductive Act
  | finish (result : Except Trap (List Value))
  /-- Append to the log of the store. -/
  | log (vs : List Value) (next : Act)
  /-- Look at the log of the store. All that hosts remember from one call to the next is there. -/
  | readLog (k : Array Value → Act)
  /-- Look at the heap. -/
  | get (k : Heap → Act)
  /-- Replace the heap. -/
  | put (heap : Heap) (next : Act)
  /-- Add an entity to the store; there may be no room for a table or a memory. -/
  | alloc (entity : Fresh (Callable Act)) (k : Option Nat → Act)
  /-- Call a function by address. -/
  | call (func : Nat) (args : List Value) (k : Except Trap (List Value) → Act)
  /-- Call an exported function of a module instance. -/
  | invoke (inst : Nat) (name : String) (args : List Value) (k : Except Trap (List Value) → Act)
  | instantiate (mod : Module) (supply : Supply (Callable Act)) (k : Except LinkError Nat → Act)

instance : Inhabited Act := ⟨.finish (.ok [])⟩

abbrev Func := Callable Act

abbrev Resolver := Supply Func

/-- A binding of an environment. -/
inductive Item
  | func (f : Func)
  | table (addr : Nat)
  | memory (addr : Nat)
  | global (v : Value)

def Item.describe : Item → String
  | func f => Describe.parts "Func" [Describe.fields "HostFunction" [("ty", f.type.describe)]]
  | table addr => Describe.parts "Table" [toString addr]
  | memory addr => Describe.parts "Memory" [toString addr]
  | global v => Describe.parts "Global" [v.describe]

structure Env where
  items : List ((String × String) × Item) := []
  deriving Inhabited

namespace Env

def define (env : Env) (source name : String) (item : Item) : Env :=
  ⟨assocInsert (source, name) item env.items⟩

def get? (env : Env) (source name : String) : Option Item :=
  env.items.lookup (source, name)

def size (env : Env) : Nat := env.items.length

/-- An environment supplies an import by the binding for its names, if that is of the kind asked
for. -/
def resolver (env : Env) : Resolver where
  func source name _ :=
    match env.get? source name with
    | some (.func f) => some f
    | _ => none
  table source name _ :=
    match env.get? source name with
    | some (.table addr) => some addr
    | _ => none
  memory source name _ :=
    match env.get? source name with
    | some (.memory addr) => some addr
    | _ => none
  global source name _ :=
    match env.get? source name with
    | some (.global v) => some v
    | _ => none

end Env

end Host

end Wasm
