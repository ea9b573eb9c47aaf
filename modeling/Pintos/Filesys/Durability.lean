import Pintos.Filesys.CacheRefinement
import Pintos.Filesys.Sessions

/-! # Durability

What is left of the files after `filesys_done` and a remount.

* **Cache.**  The calls see the array of sectors that the cache shows; the device below it gets a
  sector when its entry is evicted, by `write_behind`, or by `flush_cache`.  `filesys_done` flushes
  the cache and then closes the free map file, whose inode goes to the cache and no further.
* **Operations.**  A call comes with the operations of the cache that take place until it returns, its
  own and those of the two kernel threads.  On the array they have the effect of the call (`Serves`).
* **Lengths.**  The length of an inode that has grown is in memory until its last opener closes it. -/

namespace Pintos
open Bytes Walks Runs Option FileSys

/-! ### Devices with the same sectors -/

section
variable {d d' : Disk} (hsize : d'.size = d.size)
  (hsame : ∀ s, ∀ j < BLOCK_SECTOR_SIZE, d'.block s j = d.block s j)
include hsize hsame

theorem Disk.cacheRead_congr : d'.cacheRead = d.cacheRead := by
  funext s size offset
  unfold Disk.cacheRead
  rw [hsize]
  split_ifs with h
  · rw [slice_congr fun j hj => hsame s (offset + j) (by omega)]
  · rfl

theorem Disk.readLoop_congr (data : InodeDisk) (fuel size offset : ℕ) :
    d'.readLoop data fuel size offset = d.readLoop data fuel size offset := by
  have hread := Disk.cacheRead_congr hsize hsame
  induction fuel generalizing size offset with
  | zero => rfl
  | succ fuel ih => simp only [Disk.readLoop, Disk.byteToSector, hread, ih]

theorem FileSys.mount_congr {fs : FileSys} (h : mount d = some fs) :
    ∃ fs', mount d' = some fs' ∧ (∀ a, fs'.contents a = fs.contents a) ∧
      fs'.vol.freeMap = fs.vol.freeMap := by
  have hloop := Disk.readLoop_congr hsize hsame
  have hino : ∀ m f a, Volume.inodeOpen ⟨d', m, f⟩ a = Volume.inodeOpen ⟨d, m, f⟩ a := by
    simp only [Volume.inodeOpen, Disk.cacheRead_congr hsize hsame, implies_true]
  simp only [mount, Volume.freeMapOpen, Volume.bitmapRead, Volume.freeMapInit, bind_eq_bind,
    bind_eq_some_iff, some.injEq, Prod.exists, Prod.mk.injEq] at h
  obtain ⟨v, ⟨inode, hopen, ok, v1, ⟨buf, hbuf, rfl, rfl⟩, hv⟩, rfl⟩ := h
  obtain ⟨hok, ⟨⟩⟩ := ite_none_right_eq_some.mp hv
  refine ⟨⟨⟨d', fun s => decide (s < d.size) && bitmapBit buf s, some inode.data⟩, fun _ => none, [],
    0⟩, ?_, fun a => ?_, rfl⟩
  · simp only [mount, Volume.freeMapOpen, Volume.bitmapRead, Volume.freeMapInit, bind_eq_bind, hino,
      hopen, hloop, hsize, hbuf, bind_some]
    rw [if_pos (decide_eq_true (of_decide_eq_true hok)), bind_some]
  · simp only [contents, inodeData, hino, hloop]
    rfl

end

/-! ### Sessions above the cache -/

/-- The file system as its calls see it, and the cache with the device below it. -/
structure CachedSession where
  session : Session
  cache : Cache

namespace CachedSession

/-- A call, with the operations of the cache until it has returned. -/
def step (s : CachedSession) (a : SessionCall × List CacheOp) : Option CachedSession := do
  let session ← s.session.step a.1
  let (_, cache) ← trace Cache.perform s.cache a.2
  some ⟨session, cache⟩

/-- `filesys_done`: `flush_cache` and then `free_map_close`, which writes the inode of the file. -/
def filesysDone (s : CachedSession) : Option Cache := do
  let cache ← s.cache.flushCache
  match s.session.fs.vol.freeMapFile with
  | none => some cache
  | some file => (cache.access (.write FREE_MAP_SECTOR file.bytes 0)).map Prod.snd

/-- `filesys_done`, and `filesys_init (false)` on what is left on the device. -/
def restart (s : CachedSession) : Option CachedSession := do
  let cache ← s.filesysDone
  let fs ← mount ⟨cache.size, cache.disk⟩
  some ⟨.initial fs, cacheInit cache.size cache.disk⟩

/-- The call is orderly and no shutdown, and the operations, each of which is safe when its turn
comes, have the effect of the call on the array of sectors. -/
structure Serves (s : CachedSession) (a : SessionCall × List CacheOp) : Prop where
  orderly : s.session.Orderly a.1
  running : a.1 ≠ .remount
  safe : ∀ c op, Performs Cache.perform s.cache a.2 c op → c.Safe s.session.fs.vol.disk.size op
  effect : ∀ session, s.session.step a.1 = some session → ∃ outs,
    trace Disk.perform s.session.fs.vol.disk a.2 = some (outs, session.fs.vol.disk)

variable {s s' : CachedSession} {a : SessionCall × List CacheOp}

/-- The cache goes on showing what the calls see. -/
theorem mirrors_step (h : s.cache.MirrorsAll s.session.fs.vol.disk) (hok : s.Serves a)
    (hs : s.step a = some s') :
    s.session.step a.1 = some s'.session ∧ s'.cache.MirrorsAll s'.session.fs.vol.disk := by
  simp only [step, bind_eq_bind, bind_eq_some_iff, Prod.exists] at hs
  obtain ⟨session, hcall, outs, cache, hcache, ⟨⟩⟩ := hs
  obtain ⟨outs1, c1, d1, hc1, hd1, hm⟩ := h.trace hok.safe
  obtain ⟨outs2, hd2⟩ := hok.effect session hcall
  obtain ⟨-, rfl⟩ := Prod.mk.inj (mem_unique hc1 hcache)
  obtain ⟨-, rfl⟩ := Prod.mk.inj (mem_unique hd1 hd2)
  exact ⟨hcall, hm⟩

/-- `filesys_done` leaves on the device what the calls have seen. -/
theorem filesysDone_eq (h : s.cache.MirrorsAll s.session.fs.vol.disk)
    (hlt : FREE_MAP_SECTOR < s.session.fs.vol.disk.size) : ∃ c, s.filesysDone = some c ∧
      c.size = s.session.fs.vol.disk.size ∧
      ∀ a, ∀ j < BLOCK_SECTOR_SIZE, c.disk a j = s.session.fs.vol.disk.block a j := by
  obtain ⟨c, hflush, hm, hcln, hdisk⟩ := h.flushCache
  unfold filesysDone
  rw [hflush, bind_eq_bind, bind_some]
  cases s.session.fs.vol.freeMapFile with
  | none => exact ⟨c, rfl, hm.diskSize.symm, hdisk⟩
  | some file =>
    have hlen : file.bytes.length = BLOCK_SECTOR_SIZE := by simp [InodeDisk.bytes]
    obtain ⟨c', hacc, hm', hsame⟩ := hm.access_write (hm.diskSize ▸ hlt)
      (show _ + 0 ≤ _ by omega) (.inl hlen)
    refine ⟨c', by simp only [hacc, map_some], hm'.diskSize.symm, fun a j hj => ?_⟩
    rw [hsame hcln, hdisk a j hj]

/-- **Durability.**  A file system that orderly calls have led to is used through a cache that shows
its sectors.  After every run of orderly calls, if no open inode has another length in memory than
on the device, every file has the same length and contents after `filesys_done` and a remount, and
the free map is the same. -/
theorem durable_shutdown (d : Disk) (fs : FileSys) (hsize : d.size < 2 ^ 32)
    (hf : FileSys.format d = some fs) (s₀ : Session)
    (h₀ : Reaches Session.step Session.Orderly (.initial fs) s₀) (cache : Cache)
    (hc : cache.MirrorsAll s₀.fs.vol.disk) (s : CachedSession)
    (h : Reaches step Serves ⟨s₀, cache⟩ s) (hp : s.session.fs.Persisted) :
    ∃ s', s.restart = some s' ∧ (∀ a, s'.session.fs.contents a = s.session.fs.contents a) ∧
      (∀ p i, s.session.fs.heap p = some i →
        ∃ f, s'.session.fs.contents i.sector = some f ∧ f.bytes.length = i.data.length) ∧
      ∀ a < s.session.fs.vol.disk.size,
        s'.session.fs.vol.freeMap a = s.session.fs.vol.freeMap a := by
  obtain ⟨hrun, hm⟩ : Reaches Session.step Session.Orderly (.initial fs) s.session ∧
      s.cache.MirrorsAll s.session.fs.vol.disk := by
    refine h.invariant (P := fun s => Reaches Session.step Session.Orderly (.initial fs) s.session ∧
      s.cache.MirrorsAll s.session.fs.vol.disk) ⟨h₀, hc⟩ fun s a s' ⟨hrun, hm⟩ hok hs => ?_
    obtain ⟨hcall, hm'⟩ := mirrors_step hm hok hs
    exact ⟨.step a.1 hrun hok.orderly hcall, hm'⟩
  obtain ⟨M, σ, P, hi⟩ := Session.settled_of_reaches hsize hf hrun
  obtain ⟨fs1, hmnt, -, -, hcon, -, hmap⟩ := hi.backed.mount hi.map hp
  have hlt : FREE_MAP_SECTOR < s.session.fs.vol.disk.size := by
    obtain ⟨f, hf, -⟩ := hi.linked.root
    exact (Nat.zero_le _).trans_lt (hi.backed.stored _ f hf).lt_size
  obtain ⟨c, hdone, hcsize, hdisk⟩ := filesysDone_eq hm hlt
  obtain ⟨fs2, hmnt2, hcon2, hmap2⟩ := @mount_congr _ ⟨c.size, c.disk⟩ hcsize hdisk _ hmnt
  refine ⟨⟨.initial fs2, cacheInit c.size c.disk⟩, ?_,
    fun a => (hcon2 a).trans (hcon a), fun p i hpi => ?_, fun a ha => ?_⟩
  · simp [restart, hdone, hmnt2]
  · obtain ⟨f, hf, hst, hdata⟩ := hi.backed.open_inode hpi
    exact ⟨f, ((hcon2 _).trans (hcon _)).trans (hi.backed.contents _ f hf),
      by rw [← hst.length, hdata]⟩
  · exact (congrFun hmap2 a).trans (hmap a ha)

/-- The root directory is closed, which writes its inode to the cache, and is there after a
remount. -/
theorem durable_shutdown_closed : ∃ fs s s', FileSys.format ⟨64, fun _ _ => 0⟩ = some fs ∧
    Reaches step Serves ⟨.initial fs, cacheInit fs.vol.disk.size fs.vol.disk.block⟩ s ∧
    s.session.fs.Persisted ∧ s.restart = some s' ∧
    s'.session.fs.contents ROOT_DIR_SECTOR = some ⟨true, linkBytes (MAX_FILES_PER_DIR *
      DirEntry.SIZE) ROOT_DIR_SECTOR ROOT_DIR_SECTOR⟩ := by
  obtain ⟨fs, -, -, -, hfrm, -⟩ := exists_formatted
  obtain ⟨M, P, data, h, hheap⟩ := Session.settled_format (by decide) hfrm
  generalize MAX_FILES_PER_DIR * DirEntry.SIZE = length at h ⊢
  have hroot : rootStore length ROOT_DIR_SECTOR =
      some ⟨true, linkBytes length ROOT_DIR_SECTOR ROOT_DIR_SECTOR⟩ := Function.update_self _ _ _
  have hlt : ROOT_DIR_SECTOR < fs.vol.disk.size := (h.backed.stored _ _ hroot).lt_size
  have hp := (congrFun hheap 0).trans (Function.update_self ..)
  obtain ⟨fs1, hcls, hdisk, hnone⟩ : ∃ fs1, fs.inodeClose 0 = some fs1 ∧
      fs1.vol.disk = fs.vol.disk.put ROOT_DIR_SECTOR data.bytes 0 ∧ fs1.heap = fun _ => none := by
    refine ⟨_, inodeClose_last h.backed.tidy hp rfl rfl hlt, rfl, ?_⟩
    show Function.update fs.heap 0 none = _
    rw [hheap, Function.update_idem, Function.update_eq_self]
  have hok : (Session.initial fs).Orderly (.fileClose 0) := fun i hi _ => by
    rw [← mem_unique hp hi]
  have hset := (h.close (c := .fileClose 0) hok hcls).1
  have hcall : (Session.initial fs).step (.fileClose 0) =
      some { Session.initial fs with fs := fs1 } := by
    simp only [Session.step, Session.initial, hcls, bind_eq_bind, bind_some]
  have hm : (cacheInit fs.vol.disk.size fs.vol.disk.block).MirrorsAll fs.vol.disk :=
    Cache.mirrors_cacheInit h.backed.sound.size _
  have hlen : data.bytes.length = BLOCK_SECTOR_SIZE := by simp [InodeDisk.bytes]
  obtain ⟨c, hacc, -⟩ := hm.access_write hlt (show _ + 0 ≤ _ by omega) (.inl hlen)
  have hcache : trace Cache.perform (cacheInit fs.vol.disk.size fs.vol.disk.block)
      [.access (.write ROOT_DIR_SECTOR data.bytes 0)] = some ([[]], c) :=
    trace_cons.mpr ⟨[[]], c, [], by simp [Cache.perform, hacc], rfl, rfl⟩
  have hserves : Serves ⟨.initial fs, cacheInit fs.vol.disk.size fs.vol.disk.block⟩
      (.fileClose 0, [.access (.write ROOT_DIR_SECTOR data.bytes 0)]) := by
    refine ⟨hok, fun hrm => ?_, fun c1 op hop => ?_, fun session hs => ⟨[[]], ?_⟩⟩
    · cases hrm
    · rw [List.mem_singleton.mp hop.mem]
      exact ⟨hlt, by omega, .inl hlen⟩
    · cases mem_unique hcall hs
      refine trace_cons.mpr ⟨[[]], fs1.vol.disk, [], ?_, rfl, rfl⟩
      simp [Disk.perform, Disk.access, Disk.cacheWrite, Session.initial, hlen, hlt, hdisk]
  have hrun : Reaches step Serves
      ⟨.initial fs, cacheInit fs.vol.disk.size fs.vol.disk.block⟩
      ⟨{ Session.initial fs with fs := fs1 }, c⟩ :=
    .step _ .start hserves (by simp only [step, hcall, hcache, bind_eq_bind, bind_some])
  have hpers : fs1.Persisted := fun p i hpi => by
    rw [hnone] at hpi
    cases hpi
  obtain ⟨s', hrst, hcon, -⟩ := durable_shutdown _ fs (by decide) hfrm _ .start _ hm _ hrun hpers
  exact ⟨fs, _, s', hfrm, hrun, hpers, hrst, (hcon _).trans (hset.backed.contents _ _ hroot)⟩

end CachedSession

namespace Session

/-- A byte that is written to a file that is still open is not there after a remount. -/
theorem growth_lost : ∃ fs s fs' a, FileSys.format ⟨64, fun _ _ => 0⟩ = some fs ∧
    Reaches step (fun _ _ => True) (initial fs) s ∧ FileSys.mount s.fs.vol.disk = some fs' ∧
    s.fs.contents a = some ⟨false, [1]⟩ ∧ fs'.contents a = some ⟨false, []⟩ := by
  obtain ⟨fs, fs1, M, P, a, hfrm, ha, hcrt, h, -, hr⟩ :=
    exists_created 0 false nofun (by decide) (by decide)
  obtain ⟨s, hrch, hs, hcwds, hheap⟩ := h.exists_closed fun p i hp => (hr p i hp).1
  have hst := hs.backed.stored a _ (addFile_self _ _ _ _ _ _)
  -- the file is opened
  have hcwd := hcwds ▸ initial_cwds
  obtain ⟨p, i, fs2, hopen, hb, hgrw, hp, rfl⟩ := hs.backed.filesysOpen_live hs.linked
    (hs.cwds _ _ hcwd) (rooted_fileName _) (opened_fileName ha (hst.lt_size.trans hs.backed.sound.size))
  -- and written to
  have hund := hgrw.undenied hs.undenied p i hp
  have hfile := addFile_self (rootStore (MAX_FILES_PER_DIR * DirEntry.SIZE)) ROOT_DIR_SECTOR
    i.sector fileName 0 false
  obtain ⟨fs3, P', hwrt, hw, hdvc⟩ : ∃ fs3 P', fs2.inodeWriteAt p [1] 0 = some (1, fs3) ∧
      fs3.Stores M (Function.update _ i.sector (some ⟨false, [1]⟩)) P' ∧
      ∀ s, ((rootStore (MAX_FILES_PER_DIR * DirEntry.SIZE)).addFile ROOT_DIR_SECTOR i.sector
        fileName 0 false s).isSome → fs3.vol.inodeOpen s = fs2.vol.inodeOpen s := by
    obtain ⟨v, P', hwrt, hw, -, hdvc⟩ := hb.toStores.inodeWriteAt hp hfile hund
      (show 0 + [1].length ≤ MAX_LENGTH by decide) (by
        show sectorsFor 1 - sectorsFor 0 ≤ _
        exact Nat.zero_le _)
    exact ⟨_, P', hwrt, hw, hdvc⟩
  have hmr := hb.mirrored_inodeWriteAt hp hb.mirrored (by decide) hwrt
  -- the inode on the device is still the one of an empty file
  have hold : (fs3.vol.inodeOpen i.sector).map Inode.data = some (P i.sector).data := by
    rw [hdvc _ (by rw [hfile]; rfl), hgrw.device]
    exact hs.backed.device_of_closed hfile ((findOpen_eq_none hs.backed.tidy).mpr
      fun q j hq => by rw [hheap] at hq; cases hq)
  obtain ⟨v', hmnt, hdisk, -⟩ := exists_mount hmr (hw.sound.isSome_iff.mpr hs.map)
  have hlen := hst.length
  refine ⟨fs, ⟨fs3, s.cwds⟩, ⟨v', fun _ => none, [], 0⟩, i.sector, hfrm, ?_, hmnt, ?_, ?_⟩
  · have hstep : s.step (.filesysOpen INITIAL_TID fileName) = some { s with fs := fs2 } := by
      simp only [Session.step, hcwd, hopen, bind_eq_bind, bind_some]
    have hstep' : Session.step { s with fs := fs2 } (.fileWrite p [1] 0) = some ⟨fs3, s.cwds⟩ := by
      simp only [Session.step, hwrt, bind_eq_bind, bind_some]
    exact .step _ (.step _ ((Reaches.step _ .start trivial (step_create hcrt)).trans hrch.any)
      trivial hstep) trivial hstep'
  · exact hw.contents _ _ (Function.update_self _ _ _)
  · have hino : inodeData ⟨v', fun _ => none, [], 0⟩ i.sector = some (P i.sector).data := by
      rw [← hold, ← Volume.inodeOpen_congr (by rw [hdisk]) (by rw [hdisk])]
      rfl
    simp only [contents, hino, hlen, bind_eq_bind, bind_some, hst.isDirectory]
    rfl

end Session

end Pintos
