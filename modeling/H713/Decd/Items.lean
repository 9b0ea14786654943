import H713.Decd.Steps

/-!
# Decd.Items

`dec_frame_submit` and `dec_interlace_setup` with what they allocate: frame items, their dma-bufs and fences, and
the files of the fences. Calls are made of steps, and so is the callback `frame_item_release`. Memory that was freed
is not used again: reading a fence after its `kfree` is `bug`.
-/

namespace H713.Decd

open Function
open RefCount

structure FrameItem extends Item where
  imageMap : Bool
  infoMap : Bool
  fence : Option Nat

def FrameItem.maps (it : FrameItem) : Nat := it.imageMap.toNat + it.infoMap.toNat

structure Fence where
  item : Nat
  refs : Nat
  signaled : Bool
  frees : Nat

structure Mem where
  items : Heap FrameItem
  fence : Nat → Fence
  fences : Nat
  files : List (Nat × Nat)
  nextFile : Nat
  mapped : Nat → Nat
  released : List Nat

structure Desc where
  blueEn : Bool
  linear : Bool
  format : UInt32
  splitFields : Bool

structure CreateEnv where
  alloc : Bool
  imageMap : Bool
  infoMap : Bool
  fence : Bool

namespace Mem

def fenceAlloc (m : Mem) (item : Nat) : Mem :=
  { m with fence := update m.fence m.fences ⟨item, 1, false, 0⟩, fences := m.fences + 1 }

def created (desc : Desc) (env : CreateEnv) : Option Bool :=
  if desc.linear then if env.alloc then some false else none
  else if desc.format > 0x14 then none
  else if ¬ env.alloc then none
  else if ¬ env.imageMap then none
  -- the image is unmapped again
  else if ¬ env.infoMap then none
  else some true

def addItem (m : Mem) (desc : Desc) (dmaBufs fence : Bool) : Mem :=
  let item : FrameItem := ⟨⟨desc.splitFields⟩, dmaBufs, dmaBufs, if fence then some m.fences else none⟩
  { if fence then m.fenceAlloc m.items.next else m with
    items := m.items.alloc item
    mapped := update m.mapped m.items.next item.maps }

def frameItemCreate (m : Mem) (fenceCtx : Bool) (desc : Desc) (env : CreateEnv) : Option Nat × Mem :=
  match created desc env with
  | none => (none, m)
  | some dmaBufs => (some m.items.next, m.addItem desc dmaBufs (fenceCtx && env.fence))

def fenceFree (m : Mem) : Option Nat → Out Mem Unit
  | none => .ret () m
  | some f =>
    if (m.fence f).frees ≠ 0 then .bug
    else .ret () { m with
      fence := update m.fence f { m.fence f with signaled := true, frees := (m.fence f).frees + 1 } }

def frameItemRelease (m : Mem) (i : Nat) : Out Mem Unit :=
  match m.items.put i with
  | none => .bug
  | some (items, none) => .ret () { m with items := items }
  | some (items, some item) =>
    (m.fenceFree item.fence).bind fun _ m => .ret () { m with
      items := items
      mapped := update m.mapped i (m.mapped i - item.maps)
      released := m.released ++ [i] }

def releaseOpt (m : Mem) : Option Nat → Out Mem Unit
  | none => .ret () m
  | some i => m.frameItemRelease i

def fenceFdCreate (m : Mem) : Option Nat → Mem
  | none => m
  | some f => { m with
    fence := update m.fence f { m.fence f with refs := (m.fence f).refs + 1 }
    files := m.files ++ [(m.nextFile, f)]
    nextFile := m.nextFile + 1 }

def close (m : Mem) (file : Nat) : Out Mem Unit :=
  match m.files.lookup file with
  | none => .bug
  | some f =>
    let fence := m.fence f
    if fence.frees ≠ 0 then .bug
    else .ret () { m with
      fence := update m.fence f { fence with
        refs := fence.refs - 1
        frees := if fence.refs ≤ 1 then fence.frees + 1 else fence.frees }
      files := m.files.erase (file, f) }

def poll (m : Mem) (file : Nat) : Out Mem Unit :=
  match m.files.lookup file with
  | none => .bug
  | some f => if (m.fence f).frees ≠ 0 then .bug else .ret () m

end Mem

/-- Where the process that holds `dec->lock` is. -/
inductive Call where
  | idle
  | loop (item : Nat) (rep : Int) (fd : Bool)
  | resume (item : Nat) (rep : Int) (fd : Bool)
  | fence (item : Nat) (fd : Bool)
  | release (item : Nat)
  | pair (top bottom : Nat)
  | pairResume
  | disabling
deriving DecidableEq

def Call.next (item : Nat) (rep : Int) (fd : Bool) : Call :=
  if rep > 1 then .loop item (rep - 1) fd else .fence item fd

structure World where
  size : Nat
  sys : Sys
  mem : Mem
  call : Call
  enabled : Bool
  fenceCtx : Bool
  frames : List (Nat × Nat)
  handled : Nat
  failed : List Nat

namespace World

def pending (w : World) : List Nat := (w.sys.dev.released.map Prod.fst).drop w.handled

inductive Op where
  | submit (desc : Desc) (env : CreateEnv) (rep : Int) (fd : Bool)
  | enqueue (alloc : Bool)
  | resume
  | fence (ok : Bool)
  | release
  | interlace (top bottom : Desc) (envTop envBottom : CreateEnv)
  | enqueuePair (allocTop allocBottom : Bool)
  | callback
  | manager (op : Decd.Op)
  | enable (ok : Bool)
  | disable
  | exit
  | close (file : Nat)
  | poll (file : Nat)

def submit (w : World) (desc : Desc) (env : CreateEnv) (rep : Int) (fd : Bool) : World :=
  if ¬ w.enabled ∨ desc.blueEn then w
  else
    let r := w.mem.frameItemCreate w.fenceCtx desc env
    { w with mem := r.2, call := r.1.elim .idle fun i => .loop i rep fd }

def enqueue (w : World) (i : Nat) (rep : Int) (fd alloc : Bool) : Out World Unit :=
  match w.mem.items.obj? i, w.mem.items.inc i with
  | some item, some items =>
    (Decd.step w.sys (.enqueue item.toItem alloc)).bind fun r sys => .ret () { w with
      sys := sys
      mem := { w.mem with items := items }
      frames := if r = 0 then w.frames ++ [(w.sys.dev.heap.next, i)] else w.frames
      failed := if alloc then w.failed else w.failed ++ [i]
      call := if r = 0 then .resume i rep fd else .next i rep fd }
  | _, _ => .bug

def fenceFd (w : World) (i : Nat) (fd ok : Bool) : Out World Unit :=
  match w.mem.items.obj? i with
  | none => .bug
  | some item =>
    .ret () { w with mem := if fd && ok then w.mem.fenceFdCreate item.fence else w.mem, call := .release i }

def interlace (w : World) (top bottom : Desc) (envTop envBottom : CreateEnv) : Out World Unit :=
  if ¬ w.enabled ∨ top.blueEn then .ret () w
  else
    (Decd.step w.sys (.setStreamType 1)).bind fun _ sys =>
      let t := w.mem.frameItemCreate w.fenceCtx top envTop
      let b := t.2.frameItemCreate w.fenceCtx bottom envBottom
      match t.1, b.1 with
      | some i, some j => .ret () { w with sys := sys, mem := b.2, call := .pair i j }
      | o, p =>
        (b.2.releaseOpt o).bind fun _ m => (m.releaseOpt p).bind fun _ m => .ret () { w with sys := sys, mem := m }

def enqueuePair (w : World) (i j : Nat) (allocTop allocBottom : Bool) : Out World Unit :=
  match w.mem.items.obj? i, w.mem.items.obj? j with
  | some top, some bottom =>
    (Decd.step w.sys (.enqueueInterlace top.toItem bottom.toItem allocTop allocBottom)).bind fun r sys =>
      .ret () { w with
        sys := sys
        frames := if r = 0 then w.frames ++ [(w.sys.dev.heap.next, i), (w.sys.dev.heap.next + 1, j)] else w.frames
        failed := if allocTop && allocBottom then w.failed else w.failed ++ [i, j]
        call := if r = 0 then .pairResume else .idle }
  | _, _ => .bug

def callback (w : World) : Out World Unit :=
  match w.pending.head? with
  | none => .bug
  | some k =>
    match w.frames.lookup k with
    | none => .bug
    | some i =>
      (w.mem.frameItemRelease i).bind fun _ m =>
        .ret () { w with mem := m, frames := w.frames.erase (k, i), handled := w.handled + 1 }

def enable (w : World) (ok : Bool) : World :=
  if w.enabled ∨ ¬ ok then w
  else
    let d := w.sys.dev
    { w with sys := ⟨decFrameManagerInit w.size d.heap d.lastFrame d.released, .idle, .idle⟩, enabled := true }

def disable (w : World) : Out World Unit :=
  if ¬ w.enabled then .ret () w
  else (Decd.step w.sys .stop).bind fun _ sys => .ret () { w with sys := sys, call := .disabling }

def exit (w : World) : Out World Unit :=
  (decFrameManagerExit w.sys.worker w.sys.dev).bind fun _ d =>
    .ret () { w with sys := { w.sys with dev := d }, call := .idle, enabled := false }

def step (w : World) : Op → Out World Unit
  | .submit desc env rep fd => .ret () (w.submit desc env rep fd)
  | .enqueue alloc =>
    match w.call with
    | .loop i rep fd => w.enqueue i rep fd alloc
    | _ => .bug
  | .resume =>
    match w.call with
    | .resume i rep fd =>
      (Decd.step w.sys .resume).bind fun _ sys => .ret () { w with sys := sys, call := .next i rep fd }
    | .pairResume => (Decd.step w.sys .resume).bind fun _ sys => .ret () { w with sys := sys, call := .idle }
    | _ => .bug
  | .fence ok =>
    match w.call with
    | .fence i fd => w.fenceFd i fd ok
    | _ => .bug
  | .release =>
    match w.call with
    | .release i => (w.mem.frameItemRelease i).bind fun _ m => .ret () { w with mem := m, call := .idle }
    | _ => .bug
  | .interlace top bottom envTop envBottom => w.interlace top bottom envTop envBottom
  | .enqueuePair allocTop allocBottom =>
    match w.call with
    | .pair i j => w.enqueuePair i j allocTop allocBottom
    | _ => .bug
  | .callback => w.callback
  | .manager op => (Decd.step w.sys op).bind fun _ sys => .ret () { w with sys := sys }
  | .enable ok => .ret () (w.enable ok)
  | .disable => w.disable
  | .exit => w.exit
  | .close file => (w.mem.close file).bind fun _ m => .ret () { w with mem := m }
  | .poll file => (w.mem.poll file).bind fun _ m => .ret () { w with mem := m }

def accepts (w : World) (op : Op) : Bool :=
  match w.call, op with
  | .idle, .submit _ _ _ _ | .idle, .interlace _ _ _ _ | .idle, .enable _ | .idle, .disable => true
  | .disabling, .exit => true
  | .loop _ _ _, .enqueue _ | .resume _ _ _, .resume | .fence _ _, .fence _ | .release _, .release => true
  | .pair _ _, .enqueuePair _ _ | .pairResume, .resume => true
  -- `dec_stop_video_stream` holds the lock as the others do
  | .idle, .manager .stop => w.enabled
  | _, .manager .vsync | _, .manager .refresh | _, .manager .work => w.enabled
  | _, .manager .stopped | _, .manager .timeout => w.enabled
  | _, .callback | _, .close _ | _, .poll _ => true
  | _, _ => false

def Possible (w : World) (op : Op) : Prop :=
  w.accepts op ∧
    match op with
    | .submit _ _ _ _ | .interlace _ _ _ _ | .enable _ | .disable | .exit => w.sys.proc = .idle
    | .manager op => Enabled w.sys op
    | .callback => w.pending ≠ []
    | .close file | .poll file => file ∈ w.mem.files.map Prod.fst
    | .enqueue _ | .resume | .fence _ | .release | .enqueuePair _ _ => True

instance (w : World) : DecidablePred (Possible w) := fun op => by
  cases op <;> unfold Possible <;> infer_instance

def init (size : Nat) (fenceCtx : Bool) : World where
  size := size
  sys := start size
  mem := ⟨.empty, fun _ => ⟨0, 0, false, 0⟩, 0, [], 0, fun _ => 0, []⟩
  call := .idle
  enabled := false
  fenceCtx := fenceCtx
  frames := []
  handled := 0
  failed := []

end World

end H713.Decd
