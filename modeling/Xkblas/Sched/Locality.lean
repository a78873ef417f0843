import Xkblas.Library.FirstMax
import Xkblas.Memory.Source
import Xkblas.Sched.LocalityDomain

/-!
# Memories, locality domains and the placement of tasks

A device has a locality domain and an address space, whose local identifier is the number of its
memory. `kaapi_dsm_register_device` makes the identifiers equal, but for the host, which has the
memory 0 always. The host is configured before the GPUs, so its domain is 0 until the first
`kaapi_localitydomain_finalize` and 1 after it.

Three functions go from a memory to a domain: the affinity score of a task and its best domain with
`lid + 1`, and `kaapi_thread_push`, for the owner of a parameter, with `lid`.
-/

namespace Xkblas.Sched.Locality

open Library
open Library.BitMask
open LocalityDomain (LdType Fields get count getBytype)
open Memory.Source (Bits Random getRandomBit1)

/-! ## Cycles of the runtime -/

/-- `KAAPI_MEMORY_MAX_NODES`. -/
def maxNodes : ℕ := 16

/-- The runtime is stopped, or it runs, or its devices are on their way out. -/
inductive Phase where
  | stopped
  | running
  | stopping
  deriving DecidableEq, Repr

/-- The registry of the domains, and the devices. `gpus` have been configured since the start,
`asid` is the local identifier of a registered device, and `nodes` are those of the memory. A
`cycle` is over when the runtime is finalized. -/
structure State (δ : Type*) where
  registry : LocalityDomain.State δ
  phase : Phase
  host : Option δ
  gpus : ℕ
  asid : δ → Option ℕ
  nodes : ℕ → Option δ
  cycle : ℕ

/-- The steps. The configuration of a device attaches its domain, its thread then registers it.
`leave` is `_kaapi_offload_device_finalize`. -/
inductive Action (δ : Type*) where
  | configHost (d : δ)
  | configGpu (d : δ)
  | register (d : δ)
  | stop
  | leave (d : δ)
  | finalize
  deriving DecidableEq, Repr

section

variable {δ : Type*} [DecidableEq δ]

/-- A new domain for a device, whose result is not looked at. -/
def config (r : LocalityDomain.State δ) (type : LdType) (d : δ) : Option (LocalityDomain.State δ) :=
  (LocalityDomain.attach r type.code none d none).map LocalityDomain.Outcome.state

/-- `kaapi_dsm_register_device`. The host has the memory `kaapi_local_asid`, which is 0. A number
that is too large is an error that the caller does not look at. -/
def registerDevice (s : State δ) (d : δ) (ldid : ℕ) : Option (State δ) :=
  let lid := if s.host = some d then 0 else ldid % 2 ^ 16
  let s := { s with asid := Function.update s.asid d (some lid) }
  if maxNodes ≤ lid then some s
  else
    match s.nodes lid with
    | some d' => if d' = d then some s else none
    | none => some { s with nodes := Function.update s.nodes lid (some d) }

/-- `kaapi_dsm_unregister_device`. -/
def unregisterDevice (nodes : ℕ → Option δ) (lid : ℕ) : Option (ℕ → Option δ) :=
  if lid = 0 then some nodes
  else if maxNodes ≤ lid then none
  else (nodes lid).map fun _ => Function.update nodes lid none

/-- One step. There are fewer than 256 GPUs, and a device is configured once at a time. -/
def step (s : State δ) : Action δ → Option (State δ)
  | .configHost d =>
      if s.phase = .stopped ∧ d ∉ s.registry.attached then
        (config s.registry .numa d).map fun registry =>
          { s with registry, phase := .running, host := some d, gpus := 0 }
      else none
  | .configGpu d =>
      if s.phase = .running ∧ s.gpus < 255 ∧ d ∉ s.registry.attached then
        (config s.registry .gpu d).map fun registry => { s with registry, gpus := s.gpus + 1 }
      else none
  | .register d =>
      if d ∈ s.registry.attached ∧ s.asid d = none then
        (s.registry.fields d).bind fun f => registerDevice s d f.ldid
      else none
  | .stop => if s.phase = .running then some { s with phase := .stopping } else none
  | .leave d =>
      if s.phase = .stopping then
        (s.asid d).bind fun lid =>
          (unregisterDevice s.nodes lid).bind fun nodes =>
            (LocalityDomain.deattach s.registry LdType.gpu.code d).map fun o =>
              { s with registry := o.state, nodes, asid := Function.update s.asid d none }
      else none
  | .finalize =>
      if s.phase = .stopping ∧ s.registry.attached = ∅ then
        (s.nodes 0).map fun _ =>
          { s with
            registry := (LocalityDomain.finalize s.registry).state
            phase := .stopped
            host := none
            gpus := 0
            nodes := Function.update s.nodes 0 none
            cycle := s.cycle + 1 }
      else none

/-- The program starts. -/
def start (δ : Type*) : State δ where
  registry := LocalityDomain.start δ
  phase := .stopped
  host := none
  gpus := 0
  asid := fun _ => none
  nodes := fun _ => none
  cycle := 0

/-- The runs of the runtime. -/
def system (δ : Type*) [DecidableEq δ] : TransitionSystem (State δ) (Action δ) where
  initial := fun s => s = start δ
  step := step

end

/-! ## Tasks -/

/-- The metadata of an access, and the size of the view of the replica of each memory. -/
structure Data where
  valid : Bits
  wish : Bits
  size : ℕ → ℕ

/-- A parameter with its mode. The metadata may not be known. -/
structure Param where
  value : Bool
  read : Bool
  write : Bool
  data : Option Data

/-- The attribute of a task that `kaapi_task_set_ld` sets. -/
inductive Ld where
  | ocrParam (ith : ℕ)
  | bound (ldid : ℕ)
  deriving DecidableEq, Repr

/-- A task. -/
structure Task where
  params : List Param
  ld : Option Ld

/-- The array `score`: the bytes on the target, on domains of its type, in reach of a fast network
and on other domains. -/
structure Score where
  target : ℕ
  sameType : ℕ
  network : ℕ
  other : ℕ
  deriving DecidableEq, Repr

section

variable {δ : Type*} [DecidableEq δ]

/-- One memory, in the loop of `kaapi_compute_affinity_score`. -/
def addReplica (r : LocalityDomain.State δ) (ldTarget : Option δ) (p : Param) (data : Data)
    (score : Score) (lid : ℕ) : Option Score :=
  if data.valid.getLsbD lid then
    (get r (lid + 1)).bind fun ld =>
      match ld with
      | none => some score
      | some ld =>
          let sz := if p.read && p.write then data.size lid * 2 else data.size lid
          if some ld = ldTarget then some { score with target := score.target + sz }
          else
            (r.fields ld).bind fun f =>
              (ldTarget.bind r.fields).map fun g =>
                if f.type = g.type then { score with sameType := score.sameType + sz }
                else { score with other := score.other + sz }
  else some score

/-- One parameter. -/
def addParam (r : LocalityDomain.State δ) (ldTarget : Option δ) (score : Score) (p : Param) :
    Option Score :=
  if p.value then some score
  else
    match p.data with
    | none => some score
    | some data => (List.range maxNodes).foldlM (addReplica r ldTarget p data) score

/-- The test of the levels. -/
def Score.reached (score : Score) (level : ℕ) : Bool :=
  ([score.target, score.sameType, score.network, score.other].take level).any fun n => 0 < n

/-- `kaapi_compute_affinity_score`. -/
def computeAffinityScore (r : LocalityDomain.State δ) (ldid : ℕ) (task : Task) (level : ℕ) :
    Option (Score × Bool) :=
  (get r ldid).bind fun ldTarget =>
    if 1 ≤ level ∧ level ≤ 4 then
      (task.params.foldlM (addParam r ldTarget) ⟨0, 0, 0, 0⟩).map fun score =>
        (score, score.reached level)
    else none

end

/-- The loop over the valid replicas, in `kaapi_compute_best_ld`. -/
def validLoop (data : Data) : ℕ → Bits → (ℕ → ℕ) → ℕ → ℕ
  | 0, _, affinity => affinity
  | fuel + 1, bits, affinity =>
      if bits = 0#16 then affinity
      else
        let lid := ffs bits - 1
        let affinity :=
          if data.valid.getLsbD lid then
            Function.update affinity lid (affinity lid + data.size lid)
          else affinity
        validLoop data fuel (clear bits lid) affinity

/-- One parameter. The arrays are those of the written and of the other ones. -/
def addAffinity (affinity : (ℕ → ℕ) × (ℕ → ℕ)) (p : Param) : (ℕ → ℕ) × (ℕ → ℕ) :=
  if p.value then affinity
  else
    match p.data with
    | none => affinity
    | some data =>
        let valid := clear data.valid 0
        if p.write then (validLoop data maxNodes valid affinity.1, affinity.2)
        else (affinity.1, validLoop data maxNodes valid affinity.2)

/-- `kaapi_compute_best_ld`: the domain, which is also that of the task then. -/
def computeBestLd (task : Task) : Option ℕ × Task :=
  let (affinityW, affinityR) := task.params.foldl addAffinity (fun _ => 0, fun _ => 0)
  let lidmaxW := firstMax affinityW (maxNodes - 1)
  let lidmaxR := firstMax affinityR (maxNodes - 1)
  if affinityW lidmaxW ≠ 0 then
    (some (lidmaxW + 1), { task with ld := some (.bound (lidmaxW + 1)) })
  else if affinityR lidmaxR ≠ 0 then
    (some (lidmaxR + 1), { task with ld := some (.bound (lidmaxR + 1)) })
  else (none, task)

/-- The fields of the context that `kaapi_thread_push` uses. -/
structure Context (σ : Type) where
  seed : σ
  lastLdid : ℕ

section

variable {δ : Type*} {σ : Type}

/-- The domain of the owner of a data: a valid replica of a device, or the wish. -/
def ownerDomain (random : Random σ) (r : LocalityDomain.State δ) (data : Data) (ctxt : Context σ) :
    Option (Option δ × Context σ) :=
  let wish (ctxt : Context σ) : Option (Option δ × Context σ) :=
    if data.wish = 0#16 then some (none, ctxt)
    else (get r (ffs data.wish - 1)).map fun ld => (ld, ctxt)
  let bit := clear data.valid 0
  if bit = 0#16 then wish ctxt
  else
    let (index, seed) := getRandomBit1 random bit ctxt.seed
    let ctxt := { ctxt with seed }
    (get r (index - 1)).bind fun ld =>
      match ld with
      | some ld => some (some ld, ctxt)
      | none => wish ctxt

/-- `kaapi_thread_push`, for the choice of the domain. -/
def threadPush (random : Random σ) (r : LocalityDomain.State δ) (ctxt : Context σ) (task : Task) :
    Option (Option δ × Context σ) :=
  let chosen :=
    match task.ld with
    | none => some (none, ctxt)
    | some (.bound ldid) => (get r ldid).map fun ld => (ld, ctxt)
    | some (.ocrParam ith) =>
        task.params[ith]?.bind fun p => p.data.bind fun data => ownerDomain random r data ctxt
  chosen.bind fun (ld, ctxt) =>
    match ld with
    | some ld => some (some ld, ctxt)
    | none =>
        (getBytype r LdType.gpu.code ctxt.lastLdid).bind fun ld =>
          (count r LdType.gpu.code).map fun count =>
            -- A count of -1 is the error.
            let lastLdid :=
              if count = 2 ^ 32 - 1 ∨ count ≤ ctxt.lastLdid + 1 then 0 else ctxt.lastLdid + 1
            (ld, { ctxt with lastLdid })

end

/-! ## What the placement is for -/

/-- The bytes of a parameter that are valid on a memory, twice when it is read and written. -/
def Param.bytes (p : Param) (lid : ℕ) : ℕ :=
  if p.value then 0
  else
    match p.data with
    | none => 0
    | some data =>
        if data.valid.getLsbD lid then
          if p.read && p.write then data.size lid * 2 else data.size lid
        else 0

/-- The bytes of the parameters of a task that are valid on a memory. -/
def Task.bytes (task : Task) (lid : ℕ) : ℕ :=
  (task.params.map fun p => p.bytes lid).sum

/-- The same on the memory before, if there is one. -/
def Task.bytesBefore (task : Task) : ℕ → ℕ
  | 0 => 0
  | lid + 1 => task.bytes lid

/-- A parameter of the task is valid on a memory. -/
def Task.Holds (task : Task) (lid : ℕ) : Prop :=
  ∃ p ∈ task.params, p.value = false ∧ ∃ data, p.data = some data ∧ data.valid.getLsbD lid = true

/-- The bytes of a parameter that are valid on the memory of a device, if it is written or not. -/
def Param.deviceBytes (write : Bool) (p : Param) (lid : ℕ) : ℕ :=
  if p.value then 0
  else
    match p.data with
    | none => 0
    | some data =>
        if p.write = write ∧ lid ≠ 0 ∧ data.valid.getLsbD lid = true then data.size lid else 0

/-- The same for a task. -/
def Task.deviceBytes (task : Task) (write : Bool) (lid : ℕ) : ℕ :=
  (task.params.map fun p => p.deviceBytes write lid).sum

/-- The first device memory with the most bytes of the written parameters, or of the others when
there are none. -/
def Task.Best (task : Task) (lid : ℕ) : Prop :=
  (IsFirstMax (task.deviceBytes true) (maxNodes - 1) lid ∧ task.deviceBytes true lid ≠ 0) ∨
    (∀ l, task.deviceBytes true l = 0) ∧
      IsFirstMax (task.deviceBytes false) (maxNodes - 1) lid ∧ task.deviceBytes false lid ≠ 0

section

variable {δ : Type*} [DecidableEq δ]

/-- The replicas are valid on the memories of registered devices. -/
def Stored (s : State δ) (task : Task) : Prop :=
  ∀ p ∈ task.params, ∀ data, p.data = some data → ∀ lid : ℕ, data.valid.getLsbD lid = true →
    ∃ d, s.asid d = some lid

/-- The identifiers agree, and the tasks are placed where their data are. -/
structure Placed (s : State δ) (task : Task) (target : δ) (ldid lid : ℕ) : Prop where
  get : ∀ d lid, s.asid d = some lid → get s.registry lid = some (some d)
  score : ∀ level, 1 ≤ level → level ≤ 4 → ∃ score reached,
    computeAffinityScore s.registry ldid task level = some (score, reached) ∧
      score.target = task.bytes lid
  best : ∀ ldid, (computeBestLd task).1 = some ldid →
    ∃ d lid, LocalityDomain.get s.registry ldid = some (some d) ∧ s.asid d = some lid ∧
      task.Holds lid
  push : ∀ (σ : Type) (random : Random σ) (ctxt : Context σ) (ith : ℕ) (p : Param) (data : Data),
    task.params[ith]? = some p → p.data = some data → clear data.valid 0 ≠ 0#16 →
      ∃ d lid ctxt', threadPush random s.registry ctxt { task with ld := some (.ocrParam ith) } =
        some (some d, ctxt') ∧ s.asid d = some lid ∧ data.valid.getLsbD lid = true

end

end Xkblas.Sched.Locality
