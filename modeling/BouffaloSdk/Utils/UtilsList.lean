import Mathlib.Algebra.Order.Ring.Nat
import Mathlib.Logic.Function.Basic

/-!
# Intrusive lists

`components/utils/list/utils_list.c`: lists that are threaded through the `next` of their
elements, with the element's address as its name and 0 for `NULL`. A loop that goes on for more
turns than it is given has no result.
-/

namespace BouffaloSdk.UtilsList

variable {ι : Type*} [DecidableEq ι]

/-- `struct utils_list`. -/
structure ListHead where
  first : Nat
  last : Nat
  deriving DecidableEq, Repr

/-- The `next` of every element, and the lists. -/
structure Memory (ι : Type*) where
  next : Nat → Nat
  list : ι → ListHead

namespace Memory

variable (m : Memory ι) (k : ι)

def setNext (a v : Nat) : Memory ι := { m with next := Function.update m.next a v }

def setFirst (v : Nat) : Memory ι :=
  { m with list := Function.update m.list k { m.list k with first := v } }

def setLast (v : Nat) : Memory ι :=
  { m with list := Function.update m.list k { m.list k with last := v } }

end Memory

def utilsListInit (m : Memory ι) (k : ι) : Memory ι := (m.setFirst k 0).setLast k 0

def utilsListPushBack (m : Memory ι) (k : ι) (hdr : Nat) : Memory ι :=
  let m := if (m.list k).first = 0 then m.setFirst k hdr else m.setNext (m.list k).last hdr
  (m.setLast k hdr).setNext hdr 0

def utilsListPushFront (m : Memory ι) (k : ι) (hdr : Nat) : Memory ι :=
  let m := if (m.list k).first = 0 then m.setLast k hdr else m
  (m.setNext hdr (m.list k).first).setFirst k hdr

/-- The list and the element, 0 where there is none. -/
def utilsListPopFront (m : Memory ι) (k : ι) : Memory ι × Nat :=
  let element := (m.list k).first
  (if element ≠ 0 then m.setFirst k (m.next element) else m, element)

/-- The loop of `utils_list_extract`. -/
def scanBefore (next : Nat → Nat) (hdr : Nat) : (turns scan : Nat) → Option Nat
  | 0, _ => none
  | turns + 1, scan =>
    if next scan ≠ 0 ∧ next scan ≠ hdr then scanBefore next hdr turns (next scan) else some scan

def utilsListExtract (turns : Nat) (m : Memory ι) (k : ι) (hdr : Nat) : Option (Memory ι) :=
  let scan := (m.list k).first
  if scan = 0 then some m
  else if scan = hdr then some (m.setFirst k (m.next scan))
  else
    (scanBefore m.next hdr turns scan).map fun scan =>
      if m.next scan ≠ 0 then
        let m := if (m.list k).last = hdr then m.setLast k scan else m
        m.setNext scan (m.next hdr)
      else m

/-- The loop of `utils_list_find`, which `utils_list_insert_after` has too. -/
def scanFor (next : Nat → Nat) (hdr : Nat) : (turns scan : Nat) → Option Nat
  | 0, _ => none
  | turns + 1, scan =>
    if scan ≠ hdr ∧ scan ≠ 0 then scanFor next hdr turns (next scan) else some scan

def utilsListFind (turns : Nat) (m : Memory ι) (k : ι) (hdr : Nat) : Option Bool :=
  (scanFor m.next hdr turns (m.list k).first).map fun scan => scan = hdr

/-- The loop of `utils_list_cnt`. -/
def countFrom (next : Nat → Nat) : (turns cnt elt : Nat) → Option Nat
  | 0, _, _ => none
  | turns + 1, cnt, elt =>
    if elt ≠ 0 then countFrom next turns ((cnt + 1) % 2 ^ 32) (next elt) else some cnt

def utilsListCnt (turns : Nat) (m : Memory ι) (k : ι) : Option Nat :=
  countFrom m.next turns 0 (m.list k).first

/-- The loop of `utils_list_insert`: `prev` and `scan` in the end. -/
def scanSorted (next : Nat → Nat) (before : Nat → Bool) :
    (turns prev scan : Nat) → Option (Nat × Nat)
  | 0, _, _ => none
  | turns + 1, prev, scan =>
    if scan ≠ 0 then
      if before scan then some (prev, scan) else scanSorted next before turns scan (next scan)
    else some (prev, scan)

def utilsListInsert (turns : Nat) (m : Memory ι) (k : ι) (element : Nat) (cmp : Nat → Nat → Bool) :
    Option (Memory ι) :=
  (scanSorted m.next (cmp element) turns 0 (m.list k).first).map fun (prev, scan) =>
    let m := if scan = 0 then m.setLast k element else m
    let m := m.setNext element scan
    if prev ≠ 0 then m.setNext prev element else m.setFirst k element

def utilsListInsertAfter (turns : Nat) (m : Memory ι) (k : ι) (prevElement element : Nat) :
    Option (Memory ι) :=
  if prevElement = 0 then some (utilsListPushFront m k element)
  else
    (scanFor m.next prevElement turns (m.list k).first).map fun scan =>
      if scan ≠ 0 then
        let m := (m.setNext element (m.next prevElement)).setNext prevElement element
        if m.next element = 0 then m.setLast k element else m
      else m

/-- The loop of `utils_list_insert_before`. -/
def scanNext (next : Nat → Nat) (hdr : Nat) : (turns scan : Nat) → Option Nat
  | 0, _ => none
  | turns + 1, scan =>
    if scan ≠ 0 ∧ next scan ≠ hdr then scanNext next hdr turns (next scan) else some scan

def utilsListInsertBefore (turns : Nat) (m : Memory ι) (k : ι) (nextElement element : Nat) :
    Option (Memory ι) :=
  if nextElement = 0 then some (utilsListPushBack m k element)
  else if nextElement = (m.list k).first then some (utilsListPushFront m k element)
  else
    (scanNext m.next nextElement turns (m.list k).first).map fun scan =>
      if scan ≠ 0 then (m.setNext element nextElement).setNext scan element else m

def utilsListConcat (m : Memory ι) (list1 list2 : ι) : Memory ι :=
  if (m.list list2).first ≠ 0 then
    let m :=
      if (m.list list1).first = 0 then { m with list := Function.update m.list list1 (m.list list2) }
      else (m.setNext (m.list list1).last (m.list list2).first).setLast list1 (m.list list2).last
    m.setFirst list2 0
  else m

def utilsListRemove (m : Memory ι) (k : ι) (prevElement element : Nat) : Memory ι :=
  let m :=
    if prevElement = 0 then m.setFirst k (m.next element)
    else
      let m := m.setNext prevElement (m.next element)
      if (m.list k).last = element then m.setLast k prevElement else m
  m.setNext element 0

/-- The operations on the lists `ι`. -/
inductive Op (ι : Type*)
  | init (k : ι)
  | pushBack (k : ι) (hdr : Nat)
  | pushFront (k : ι) (hdr : Nat)
  | popFront (k : ι)
  | extract (k : ι) (hdr : Nat)
  | insert (k : ι) (element : Nat) (cmp : Nat → Nat → Bool)
  | insertAfter (k : ι) (prevElement element : Nat)
  | insertBefore (k : ι) (nextElement element : Nat)
  | concat (list1 list2 : ι)
  | remove (k : ι) (prevElement element : Nat)

/-- One operation in the memory, with the element that it returns. -/
def step (turns : Nat) (m : Memory ι) : Op ι → Option (Memory ι × Nat)
  | .init k => some (utilsListInit m k, 0)
  | .pushBack k hdr => some (utilsListPushBack m k hdr, 0)
  | .pushFront k hdr => some (utilsListPushFront m k hdr, 0)
  | .popFront k => some (utilsListPopFront m k)
  | .extract k hdr => (utilsListExtract turns m k hdr).map (·, 0)
  | .insert k element cmp => (utilsListInsert turns m k element cmp).map (·, 0)
  | .insertAfter k prevElement element =>
    (utilsListInsertAfter turns m k prevElement element).map (·, 0)
  | .insertBefore k nextElement element =>
    (utilsListInsertBefore turns m k nextElement element).map (·, 0)
  | .concat list1 list2 => some (utilsListConcat m list1 list2, 0)
  | .remove k prevElement element => some (utilsListRemove m k prevElement element, 0)

/-- The memory and what the operations have returned. -/
def run (turns : Nat) (m : Memory ι) : List (Op ι) → Option (Memory ι × List Nat)
  | [] => some (m, [])
  | op :: ops =>
    (step turns m op).bind fun (m, out) => (run turns m ops).map fun (m, outs) => (m, out :: outs)

/-- `utils_list_init` on every list. -/
def initialised (next : Nat → Nat) : Memory ι := ⟨next, fun _ => ⟨0, 0⟩⟩

end BouffaloSdk.UtilsList
