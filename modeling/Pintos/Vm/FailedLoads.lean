import Pintos.Vm.Evolution

/-! # Page loads that fail

`sup_load_page` of `vm/page.c`, when there may be no memory for a page table (`supLoadPageIn`).  What
is modelled in `Pages` is the case in which the page has a page table (`supLoadPageIn_true`).

* **Tables.**  A page table is made when the first page of its region is brought in, and it stays
  until the process ends (`TablesKept`).

* **Swap.**  The slot of the page is given back before the last step that can fail.
* **Frames.**  If no frame was free, another page has lost its frame for nothing. -/

namespace Pintos.Vm.State
open Outcome Function Option

variable (m : Machine)

/-- The page table that a page is in. -/
def pdNo (upage : ℕ) : ℕ := upage / 1024

/-- `lookup_page (pd, upage, true)` in a page directory that has the page tables `tables`.  If there
is none for the page, it takes a page of the kernel pool. -/
def lookupPage (tables : ℕ → Bool) (v : State) (upage : ℕ) : Option State :=
  if tables (pdNo upage) then some v else (v.pallocGetPage m false).map Prod.snd

/-- `sup_load_page`, by a process that has the page tables `tables`. -/
def supLoadPageIn (tables : ℕ → Bool) (v : State) (vaddr : ℕ) (user write : Bool) :
    Except Stop (Bool × State) :=
  let upage := vaddr / PGSIZE
  match v.sup upage with
  | none => .ok (false, v)
  | some spe =>
    if spe.loaded = true ∧ spe.slot = none then .ok (false, v)
    else if write = true ∧ spe.writable = false then .ok (false, v)
    else do
      let (frameNo, v) ← v.getFrame m user
      match spe.slot with
      | none =>
        match v.frameRead spe.f frameNo spe.pageEnd spe.fileOfs with
        | none =>
          let v ← v.freeFrame m frameNo
          return (false, v)
        | some v =>
          match lookupPage m tables v upage with
          | some v =>
            let v ← v.pagedirSetPage m upage frameNo spe.writable
            return (true, v.supSetEntry upage
              { spe with frameNo := some frameNo, loaded := true })
          | none =>
            let v ← v.freeFrame m frameNo
            return (false, v)
      | some slot =>
        let v ← v.swapRead m slot frameNo
        let v ← v.swapFree m slot
        match lookupPage m tables v upage with
        | some v =>
          let v ← v.pagedirSetPage m upage frameNo spe.writable
          return (true, v.supSetEntry upage
            { spe with slot := none, frameNo := some frameNo, loaded := true })
        | none =>
          let v ← (v.supSetEntry upage { spe with slot := none }).freeFrame m frameNo
          return (false, v)

variable {m} {v v' w : State} {user write : Bool} {f upage : ℕ} {tables : ℕ → Bool}

theorem supLoadPageIn_true {vaddr : ℕ} (h : tables (pdNo (vaddr / PGSIZE)) = true) :
    supLoadPageIn m tables v vaddr user write = supLoadPage m v vaddr user write := by
  simp only [supLoadPageIn, lookupPage, if_pos h]
  rfl

end Pintos.Vm.State
