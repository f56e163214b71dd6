/-!
# Logs

The stages tell what they do in log records. A `Logged` computation collects its records, also those
in front of a failure; its result is the one it would have without them, `result_bind`.
-/

namespace SysY

inductive Level
  | warn | info | debug | trace
deriving DecidableEq, Repr

namespace Level

/-- The place of a level among the levels, the least detailed first. -/
def rank : Level → Nat
  | .warn => 0
  | .info => 1
  | .debug => 2
  | .trace => 3

def text : Level → String
  | .warn => "WARN"
  | .info => "INFO"
  | .debug => "DEBUG"
  | .trace => "TRACE"

/-- The most detailed level to show when detail was asked for so many times. -/
def ofVerbosity : Nat → Level
  | 0 => .warn
  | 1 => .info
  | 2 => .debug
  | _ => .trace

end Level

inductive Origin
  | commandLine | generation | optimizer | lowering | coloring
deriving DecidableEq, Repr

def Origin.text : Origin → String
  | .commandLine => "compiler"
  | .generation => "sysyc::semantic"
  | .optimizer => "sysyc::opt"
  | .lowering => "sysyc::codegen"
  | .coloring => "sysyc::codegen::color"

structure Record where
  level : Level
  origin : Origin
  message : String
deriving DecidableEq, Repr

namespace Record

def text (record : Record) : String :=
  "[" ++ record.level.text ++ "] " ++ record.origin.text ++ ": " ++ record.message

def shown (level : Level) (log : List Record) : List String :=
  (log.filter fun record => record.level.rank ≤ level.rank).map text

end Record

/-- A computation with its log; it can fail with an `ε`. -/
structure Logged (ε α : Type) where
  log : List Record
  result : Except ε α

namespace Logged

variable {ε α β : Type}

instance : Monad (Logged ε) where
  pure a := ⟨[], .ok a⟩
  bind x f := match x.result with
    | .error e => ⟨x.log, .error e⟩
    | .ok a =>
      let y := f a
      ⟨x.log ++ y.log, y.result⟩

def ofExcept (result : Except ε α) : Logged ε α := ⟨[], result⟩

def say (level : Level) (origin : Origin) (message : String) : Logged ε Unit :=
  ⟨[⟨level, origin, message⟩], .ok ()⟩

def tell (records : List Record) : Logged ε Unit := ⟨records, .ok ()⟩

def mapError {ε' : Type} (f : ε → ε') (x : Logged ε α) : Logged ε' α :=
  ⟨x.log, x.result.mapError f⟩

@[simp] theorem result_pure (a : α) : (pure a : Logged ε α).result = .ok a := rfl

@[simp] theorem result_ofExcept (x : Except ε α) : (ofExcept x).result = x := rfl

@[simp] theorem result_bind (x : Logged ε α) (f : α → Logged ε β) :
    (x >>= f).result = x.result >>= fun a => (f a).result := by
  cases h : x.result <;> simp [bind, Except.bind, h]

end Logged

end SysY
