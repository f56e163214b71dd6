/-!
# The register file

Register code runs on 28 registers: the constant zero, twelve that a callee preserves, seven
temporaries and eight that carry arguments. `t0` and `t1` are scratch registers: no symbol lives in
them, so that every instruction can use them to reach values in memory.
-/

namespace SysY

inductive Register
  | zero
  /-- `s0` to `s11`, preserved by a callee. -/
  | saved (n : Fin 12)
  | temporary (n : Fin 7)
  /-- `a0` to `a7`, which carry arguments; `a0` also carries a result. -/
  | argument (n : Fin 8)
deriving DecidableEq, Repr

namespace Register

def t0 : Register := .temporary 0

def t1 : Register := .temporary 1

def a0 : Register := .argument 0

def s0 : Register := .saved 0

def savedOnes : List Register := (List.finRange 12).map .saved

def scratchOnes : List Register := [t0, t1]

def temporaries : List Register :=
  [.temporary 2, .temporary 3, .temporary 4, .temporary 5, .temporary 6]

def arguments : List Register := (List.finRange 8).map .argument

/-- The whole file, in the order of the register numbers. -/
def all : List Register :=
  .zero :: savedOnes ++ scratchOnes ++ temporaries ++ arguments

theorem mem_all (r : Register) : r ∈ all := by
  cases r with
  | zero => decide
  | saved n => revert n; decide
  | temporary n => revert n; decide
  | argument n => revert n; decide

def ofNumber? (number : Nat) : Option Register := all[number]?

def isSaved : Register → Bool
  | .saved _ => true
  | _ => false

def isVolatile : Register → Bool
  | .temporary _ | .argument _ => true
  | _ => false

/-- Whether a symbol may live in the register: neither zero nor a scratch register. -/
def isAllocatable (register : Register) : Bool :=
  register != .zero && register != t0 && register != t1

/-- The other scratch register: `t1` beside `t0`, and `t0` beside everything else. -/
def otherScratch (register : Register) : Register :=
  if register = t0 then t1 else t0

theorem otherScratch_ne (r : Register) : r.otherScratch ≠ r := by
  unfold otherScratch
  split
  · rename_i h
    rw [h]
    decide
  · rename_i h
    exact fun h' => h h'.symm

theorem otherScratch_ne_zero (r : Register) : r.otherScratch ≠ .zero := by
  unfold otherScratch
  split <;> decide

theorem otherScratch_mem (r : Register) : r.otherScratch ∈ scratchOnes := by
  unfold otherScratch
  split <;> decide

def text : Register → String
  | .zero => "x0"
  | .saved n => "s" ++ toString n.val
  | .temporary n => "t" ++ toString n.val
  | .argument n => "a" ++ toString n.val

instance : ToString Register := ⟨text⟩

end Register

def maxArguments : Nat := 8

end SysY
