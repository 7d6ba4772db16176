import Aevros.Library.Chain
import Aevros.Wire.Segment

/-! # The buddy allocator

Free blocks of `4096 * 2 ^ order` bytes hang in one linked list for each order, linked by their
first words. A loop along a cyclic list does not return: then a call gives no result (`none`).
-/

namespace Aevros

open Function

def maxOrder : ℕ := 16

/-- The variables of the allocator, and the memory that its blocks lie in. -/
structure Buddy where
  totalMem : Word
  start : Word
  stop : Word
  freeLists : ℕ → Word
  next : Word → Word

variable (m : Buddy)

def Buddy.inRange (p : Word) : Bool := m.start ≤ p && p < m.stop

def buddyValidOrder (order : ℤ) : Bool := 0 ≤ order && order ≤ maxOrder

def blockBytes (order : ℕ) : Word := (1#32 <<< order) * 4096#32

/-- How many nodes a loop along a list can meet before it is caught in a cycle. -/
def walkBound : ℕ := 2 ^ 32 + 1

def addToList (ptr : Word) (order : ℕ) : Buddy :=
  if ptr = 0 ∨ ¬ buddyValidOrder order then m
  else if ¬ m.inRange ptr then m
  else
    { m with
      next := update m.next ptr (m.freeLists order)
      freeLists := update m.freeLists order ptr }

def walkTo (next : Word → Word) (target : Word) : ℕ → Word → Option Word
  | 0, _ => none
  | fuel + 1, current =>
    if current = 0 ∨ next current = target then some current
    else walkTo next target fuel (next current)

def removeFromList (ptr : Word) (order : ℕ) : Option Buddy :=
  if ptr = 0 ∨ ¬ buddyValidOrder order then some m
  else
    let current := m.freeLists order
    if current = 0 then some m
    else if current = ptr then
      some { m with freeLists := update m.freeLists order (m.next current) }
    else
      (walkTo m.next ptr walkBound current).map fun current =>
        if current ≠ 0 ∧ m.next current = ptr then
          { m with next := update m.next current (m.next ptr) }
        else m

def alignUp (addr size : Word) : Word := (addr + size - 1) &&& ~~~(size - 1)

/-- The largest order above 0 of which a block fits, with its address; or 0 with `start`. -/
def largestFit (start stop : Word) : ℕ → ℕ × Word
  | 0 => (0, start)
  | order + 1 =>
    if alignUp start (blockBytes (order + 1)) + blockBytes (order + 1) ≤ stop then
      (order + 1, alignUp start (blockBytes (order + 1)))
    else largestFit start stop order

def buddyInit (next : Word → Word) (start stop : Word) : Buddy :=
  let m : Buddy :=
    { totalMem := stop - start, start := start, stop := stop, freeLists := fun _ => 0,
      next := next }
  let fit := largestFit start stop maxOrder
  if fit.1 = 0 then
    let addr := (start + 4095) &&& ~~~(4095 : Word)
    if addr + 4096 > stop then m else addToList m addr 0
  else addToList m fit.2 fit.1

/-- Hang the upper halves of a block of order `order + d` into the lists below, down to `order`. -/
def splitBlock (block : Word) (order : ℕ) : ℕ → Buddy → Buddy
  | 0, m => m
  | d + 1, m =>
    splitBlock block order d (addToList m (block + blockBytes (order + d)) (order + d))

def allocOrder (order : ℕ) : Option (Word × Buddy) :=
  if m.freeLists order ≠ 0 then
    let block := m.freeLists order
    some (block, { m with
      freeLists := update m.freeLists order (m.next block)
      next := update m.next block 0 })
  else
    match (List.range (maxOrder - order)).find? fun d => m.freeLists (order + d + 1) ≠ 0 with
    | none => some (0, m)
    | some d =>
      let block := m.freeLists (order + d + 1)
      (removeFromList m block (order + d + 1)).map fun m =>
        (block, splitBlock block order (d + 1) m)

/-- `buddy_alloc`; the null pointer is 0. -/
def buddyAlloc (order : ℤ) : Option (Word × Buddy) :=
  if buddyValidOrder order then allocOrder m order.toNat else some (0, m)

def unlinkBlock (prev : Option Word) (current : Word) (order : ℕ) : Buddy :=
  match prev with
  | some p => { m with next := update m.next p (m.next current) }
  | none => { m with freeLists := update m.freeLists order (m.next current) }

/-- The joining loop of `buddy_free`, with at most `d` joins. -/
def joinBuddies : ℕ → Buddy → Word → ℕ → Option Buddy
  | 0, m, address, order => some (addToList m address order)
  | d + 1, m, address, order =>
    let size := blockBytes order
    let buddyAddress := address ^^^ size
    if buddyAddress < m.start ∨ m.stop ≤ buddyAddress then some (addToList m address order)
    else
      match Chain.search 0 m.next buddyAddress walkBound none (m.freeLists order) with
      | none => none
      | some none => some (addToList m address order)
      | some (some prev) =>
        joinBuddies d (unlinkBlock m prev buddyAddress order) (address &&& ~~~size) (order + 1)

def buddyFree (ptr : Word) (order : ℤ) : Option Buddy :=
  if ptr = 0 ∨ ¬ buddyValidOrder order then some m
  else if ¬ m.inRange ptr then some m
  else if ptr &&& (blockBytes order.toNat - 1) ≠ 0 then some m
  else joinBuddies (maxOrder - order.toNat) m ptr order.toNat

/-- The loop of `buddy_free_memory` along one list. -/
def addFree (next : Word → Word) (bytes : Word) : ℕ → Word → Word → Word
  | 0, free, _ => free
  | fuel + 1, free, curr =>
    if curr = 0 then free
    else if 0xFFFFFFFF - bytes < free then 0xFFFFFFFF
    else addFree next bytes fuel (free + bytes) (next curr)

/-- The sum stops growing long before a loop comes to the bound. -/
def buddyFreeMemory : Word :=
  (List.range (maxOrder + 1)).foldl
    (fun free o => addFree m.next (blockBytes o) walkBound free (m.freeLists o)) 0

end Aevros
