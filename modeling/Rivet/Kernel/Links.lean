import Mathlib.Logic.Function.Basic
import Mathlib.Tactic.Common

/-!
# Intrusive lists

`list.h` keeps a list as a circle of nodes through its head.  The links are
modelled as they lie in memory, one pair of pointers for each node, and an
operation that would follow a null pointer has no result.
-/

namespace Rivet.Kernel

/-- `riv_node`; a null pointer is `none`. -/
structure Node (N : Type) where
  prev : Option N
  next : Option N
  deriving DecidableEq, Repr

abbrev Links (N : Type) := N → Node N

variable {N : Type} [DecidableEq N]

/-- `a->next = x`. -/
def storeNext (a x : Option N) (m : Links N) : Option (Links N) :=
  a.map fun a => Function.update m a { m a with next := x }

/-- `a->prev = x`. -/
def storePrev (a x : Option N) (m : Links N) : Option (Links N) :=
  a.map fun a => Function.update m a { m a with prev := x }

def rivListInit (h : N) (m : Links N) : Links N := Function.update m h ⟨some h, some h⟩

def rivListEmpty (h : N) (m : Links N) : Bool := (m h).next = some h

def rivListInsert (prev next : Option N) (n : N) (m : Links N) : Option (Links N) := do
  let m := Function.update m n ⟨prev, next⟩
  let m ← storeNext prev (some n) m
  storePrev next (some n) m

def rivListAdd (h n : N) (m : Links N) : Option (Links N) :=
  rivListInsert (some h) (m h).next n m

def rivListAddTail (h n : N) (m : Links N) : Option (Links N) :=
  rivListInsert (m h).prev (some h) n m

def rivListDel (n : N) (m : Links N) : Option (Links N) := do
  let m ← storeNext (m n).prev (m n).next m
  let m ← storePrev (m n).next (m n).prev m
  some (Function.update m n ⟨some n, some n⟩)

/-- `riv_list_pop`: the node taken out, null if there is none. -/
def rivListPop (h : N) (m : Links N) : Option (Option N × Links N) :=
  if rivListEmpty h m then some (none, m)
  else
    match (m h).next with
    | none => none
    | some n => do
      let m ← rivListDel n m
      some (some n, m)

/-- `riv_list_pop_tail`. -/
def rivListPopTail (h : N) (m : Links N) : Option (Option N × Links N) :=
  if rivListEmpty h m then some (none, m)
  else
    match (m h).prev with
    | none => none
    | some n => do
      let m ← rivListDel n m
      some (some n, m)

end Rivet.Kernel
