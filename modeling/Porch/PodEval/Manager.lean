import Porch.Go.Strings
import Porch.Lts.Run

/- The pod cache manager and its callers: `podcachemanager.go`, `podevaluator.go` and
   `podmanager.go` of `pkg/engine/podevaluator`.

     EvaluateFunction                   Phase, the events of a call
     connectionRequestCh, evictionCh    requests, evictions
     podReadyCh                         creating
     responseCh, doneCh                 Channel, responses, closed
     findBestPod                        leastLoad, roundRobin, findBestPod
     podCacheManager                    the events handle..., collect
     retrieveFunctionPods, warmupCache  retrieve, warm

   The manager handles one message after another. The counter of a pod is shared with the
   calls that it serves, and they may count down while the manager reads: `findBestPod`
   reads every counter twice, and the calls that finish between its two loops are part of
   the event. A counter is known by its image and its number. An image that is not in the
   map is one without pods. -/
namespace Porch.PodEval

open Go Function

/-! The pool -/

/-- The response channel of one attempt of a call; its `doneCh` goes by the same name. -/
structure Channel (ι : Type) where
  image : Str
  caller : ι
  attempt : Nat
deriving DecidableEq, Repr

/-- What the manager knows of a pod that is ready, with the number that it was started
    with. A pod that is ready has a connection. -/
structure PodData where
  podKey : Str
  postFix : Nat
deriving DecidableEq, Repr

structure FunctionPodInfo (ι : Type) where
  /-- None until the pod is started. -/
  podData : Option PodData := none
  waitlist : List (Channel ι) := []
  lastActivity : Int
  /-- The number of `concurrentEvaluations`. -/
  counter : Nat
deriving DecidableEq, Repr

structure FunctionInfo (ι : Type) where
  pods : List (FunctionPodInfo ι) := []
  roundRobinIdx : Nat := 0

/-- `connectionResponse`. -/
inductive Response where
  | pod (podKey : Str) (counter : Nat)
  | error
deriving DecidableEq, Repr

structure PodEvictionRequest (ι : Type) where
  channel : Channel ι
  podKey : Str

/-! Parameters -/

structure PodEvaluatorOptions where
  podTTL : Int
  maxWaitlistLength : Int
  maxParallelPodsPerFunction : Int
  maxGrpcRetries : Nat

/-- The `PodExecutor` of a function config. -/
structure PodExecutor where
  timeToLive : Int
  preferredMaxQueueLength : Int
  maxParallelExecutions : Int

structure Params where
  ttl : Int
  maxWaitlist : Int
  maxPods : Int

/-- `getParamsForImage`; the executor is that of the image, none when no config matches. -/
def getParamsForImage (pe : PodEvaluatorOptions) : Option PodExecutor → Params
  | none => ⟨pe.podTTL, pe.maxWaitlistLength, pe.maxParallelPodsPerFunction⟩
  | some e =>
    { ttl := if e.timeToLive ≤ 0 then pe.podTTL else e.timeToLive
      maxWaitlist :=
        if e.preferredMaxQueueLength = 0 then pe.maxWaitlistLength else e.preferredMaxQueueLength
      maxPods :=
        if e.maxParallelExecutions = 0 then pe.maxParallelPodsPerFunction
        else e.maxParallelExecutions }

/-! Calls -/

/-- What a call of `EvaluateFunction` does next. -/
inductive Phase (ι : Type) where
  | idle
  | request (ch : Channel ι)
  | waiting (ch : Channel ι)
  | evaluating (ch : Channel ι) (podKey : Str) (counter : Nat)
  /-- The pod was unavailable: it is to be evicted. -/
  | evict (ch : Channel ι) (podKey : Str)
  | evicting (ch : Channel ι)
  | returned (ok : Bool)
deriving DecidableEq, Repr

inductive Outcome where
  | ok
  | error
  /-- `codes.Unavailable`, and the context has not ended. -/
  | unavailable
deriving DecidableEq, Repr

variable {ι : Type}

/-- The phase of a call whose pod has answered. -/
def Outcome.next (ch : Channel ι) (podKey : Str) : Outcome → Phase ι
  | ok => .returned true
  | error => .returned false
  | unavailable => .evict ch podKey

structure World (ι : Type) where
  functions : Str → FunctionInfo ι := fun _ => {}
  counters : Str → Nat → Int := fun _ _ => 0
  /-- How many counters have been made for an image. -/
  made : Str → Nat := fun _ => 0
  /-- The numbers of the pods of an image that are being started. -/
  creating : Str → List Nat := fun _ => []
  requests : List (Channel ι) := []
  evictions : List (PodEvictionRequest ι) := []
  /-- Everything that was ever sent to a channel. -/
  responses : Channel ι → List Response := fun _ => []
  closed : List (Channel ι) := []
  phase : ι → Phase ι := fun _ => .idle
  /-- The requests that the manager has received. -/
  received : List (Channel ι) := []
  /-- The counter of the pod that a request is assigned to. -/
  assigned : Channel ι → Option Nat := fun _ => none

namespace World

variable [DecidableEq ι] (w : World ι)

def goto (i : ι) (ph : Phase ι) : World ι := { w with phase := update w.phase i ph }

def setFunction (image : Str) (fn : FunctionInfo ι) : World ι :=
  { w with functions := update w.functions image fn }

def setPods (image : Str) (pods : List (FunctionPodInfo ι)) : World ι :=
  w.setFunction image { w.functions image with pods := pods }

def add (image : Str) (counter : Nat) (n : Int) : World ι :=
  let counters := update (w.counters image) counter (w.counters image counter + n)
  { w with counters := update w.counters image counters }

def respond (ch : Channel ι) (r : Response) : World ι :=
  { w with responses := update w.responses ch (w.responses ch ++ [r]) }

def assignTo (ch : Channel ι) (counter : Option Nat) : World ι :=
  { w with assigned := update w.assigned ch counter }

/-- The call to the pod returns: the counter goes down. -/
def finish (i : ι) (o : Outcome) : Option (World ι) :=
  match w.phase i with
  | .evaluating ch podKey counter => (w.add ch.image counter (-1)).goto i (o.next ch podKey)
  | _ => none

def finishAll (os : List (ι × Outcome)) (w : World ι) : Option (World ι) :=
  os.foldlM (fun w o => w.finish o.1 o.2) w

/-! The best pod -/

/-- The first loop of `findBestPod`: the least load of the pods, none without pods. -/
def leastLoad (load : Nat → Int) : List (FunctionPodInfo ι) → Option Int
  | [] => none
  | pod :: pods => some (pods.foldl
      (fun least p => if load p.counter < least then load p.counter else least) (load pod.counter))

/-- The second loop: the next pod in turn that has the least load. -/
def roundRobin (load : Nat → Int) (fn : FunctionInfo ι) (least : Int) : Option Nat :=
  ((List.range fn.pods.length).map fun k => (fn.roundRobinIdx + k) % fn.pods.length).find?
    fun idx => fn.pods[idx]?.any fun pod => load pod.counter = least

/-- `findBestPod`, while the calls of `between` finish between its loops; none is -1. -/
def findBestPod (image : Str) (between : List (ι × Outcome)) :
    Option (World ι × Option (Nat × Int)) :=
  match leastLoad (w.counters image) (w.functions image).pods with
  | none => some (w, none)
  | some least => do
    let w ← w.finishAll between
    let fn := w.functions image
    match roundRobin (w.counters image) fn least with
    | none => return (w, none)
    | some idx =>
      return (w.setFunction image { fn with roundRobinIdx := (idx + 1) % fn.pods.length },
        some (idx, least))

/-- A request is counted for a pod, and answered if the pod is ready. -/
def assign (image : Str) (idx : Nat) (ch : Channel ι) : World ι :=
  match (w.functions image).pods[idx]? with
  | none => w
  | some pod =>
    let w := (w.add image pod.counter 1).assignTo ch (some pod.counter)
    match pod.podData with
    | some d => w.respond ch (.pod d.podKey pod.counter)
    | none => w.setPods image
        ((w.functions image).pods.set idx { pod with waitlist := pod.waitlist ++ [ch] })

/-- A pod is started: `NewPodInfo` with the request that waits for it first, and
    `getFuncEvalPodClient` with the number. -/
def startPod (image : Str) (first : Option (Channel ι)) (now : Int) (postFix : Nat) : World ι :=
  let counter := w.made image
  let pod : FunctionPodInfo ι :=
    { waitlist := first.toList, lastActivity := now, counter := counter }
  let w := w.setPods image ((w.functions image).pods ++ [pod])
  let w : World ι :=
    { w with
      made := update w.made image (counter + 1)
      creating := update w.creating image (w.creating image ++ [postFix]) }
  match first with
  | none => w
  | some ch => (w.add image counter 1).assignTo ch (some counter)

/-! Messages -/

/-- The first pod that is still being started, with the pods before and after it. -/
def firstPending : List (FunctionPodInfo ι) →
    Option (List (FunctionPodInfo ι) × FunctionPodInfo ι × List (FunctionPodInfo ι))
  | [] => none
  | pod :: pods =>
    if pod.podData.isNone then some ([], pod, pods)
    else (firstPending pods).map fun (before, p, after) => (pod :: before, p, after)

/-- What `removeUnhealthyPods` finds of a pod. -/
structure Health where
  podError : Bool := false
  serviceError : Bool := false
  podFailed : Bool := false
  /-- The address of the service is not that of the connection. -/
  otherTarget : Bool := false

/-- Whether `removeUnhealthyPods` keeps a pod; `idle` is none unless idle pods are removed,
    and says then which pods have reached their time to live. -/
def keeps (load : Nat → Int) (health : Str → Health) (idle : Option (FunctionPodInfo ι → Bool))
    (pod : FunctionPodInfo ι) : Bool :=
  match pod.podData with
  | none => true
  | some d =>
    let h := health d.podKey
    !(h.podError || h.serviceError || h.podFailed || h.otherTarget ||
      idle.any fun reached => load pod.counter = 0 && reached pod)

def removeUnhealthyPods (image : Str) (health : Str → Health)
    (idle : Option (FunctionPodInfo ι → Bool)) : World ι :=
  w.setPods image ((w.functions image).pods.filter (keeps (w.counters image) health idle))

/-- The calls that finish before `findBestPod` and between its loops. -/
structure Race (ι : Type) where
  before : List (ι × Outcome) := []
  between : List (ι × Outcome) := []

/-- The loop of `redistributeLoad`, with the calls that finish in each turn. -/
def redistribute (image : Str) :
    List (Channel ι) → List (Race ι) → World ι → Option (World ι × Bool)
  | [], _, w => some (w, false)
  | ch :: chs, races, w => do
    let race := races.headD {}
    let w ← w.finishAll race.before
    let (w, best) ← w.findBestPod image race.between
    let (w, more) ← redistribute image chs races.tail
      (match best with
      | some (idx, _) => w.assign image idx ch
      | none => w)
    return (w, best.isSome || more)

def respondAll (chs : List (Channel ι)) (r : Response) (w : World ι) : World ι :=
  chs.foldl (fun w ch => w.respond ch r) w

/-- The requests are no longer assigned to a pod. -/
def release (chs : List (Channel ι)) (w : World ι) : World ι :=
  chs.foldl (fun w ch => w.assignTo ch none) w

/-- A message that a pod has failed to start. -/
def podFailed (image : Str) (health : Str → Health) (races : List (Race ι))
    (before : List (FunctionPodInfo ι)) (pod : FunctionPodInfo ι)
    (after : List (FunctionPodInfo ι)) : Option (World ι) := do
  let w := release pod.waitlist (w.setPods image (before ++ after))
  let (w, redistributed) ←
    if before ++ after = [] then some (w, false)
    else redistribute image pod.waitlist races (w.removeUnhealthyPods image health none)
  return if redistributed then w else respondAll pod.waitlist .error w

def podReady (image : Str) (d : PodData) (now : Int) (before : List (FunctionPodInfo ι))
    (pod : FunctionPodInfo ι) (after : List (FunctionPodInfo ι)) : World ι :=
  let ready := { pod with podData := some d, lastActivity := now, waitlist := [] }
  respondAll pod.waitlist (.pod d.podKey pod.counter) (w.setPods image (before ++ ready :: after))

/-- The connection request that the manager receives next. -/
def handleRequest (pe : PodEvaluatorOptions) (now : Int) (executor : Option PodExecutor)
    (between : List (ι × Outcome)) : Option (World ι) :=
  match w.requests with
  | [] => none
  | ch :: requests => do
    let w := { w with requests := requests, received := ch :: w.received }
    let (w, best) ← w.findBestPod ch.image between
    let params := getParamsForImage pe executor
    let pods := (w.functions ch.image).pods
    match best with
    | none => return w.startPod ch.image (some ch) now (pods.length + 1)
    | some (idx, load) =>
      if params.maxWaitlist ≤ load ∧ pods.length < params.maxPods then
        return w.startPod ch.image (some ch) now (pods.length + 1)
      else
        let pods := pods.modify idx fun pod => { pod with lastActivity := now }
        return (w.setPods ch.image pods).assign ch.image idx ch

/-- A message of `getFuncEvalPodClient` for the pod with the number; none is an error. -/
def handleReady (image : Str) (postFix : Nat) (podKey : Option Str) (now : Int)
    (health : Str → Health) (races : List (Race ι)) : Option (World ι) :=
  if postFix ∉ w.creating image then none
  else
    let creating := update w.creating image ((w.creating image).erase postFix)
    let w : World ι := { w with creating := creating }
    -- a message without an image, and one for which no pod is pending, is ignored
    if image = [] then w
    else
      match firstPending (w.functions image).pods with
      | none => w
      | some (before, pod, after) =>
        match podKey with
        | none => w.podFailed image health races before pod after
        | some podKey => w.podReady image ⟨podKey, postFix⟩ now before pod after

/-- What the API server says of a pod that is to be evicted. -/
inductive Verdict where
  | notFound
  | apiError
  | running
  | dead

/-- The eviction request that the manager receives next. -/
def handleEviction (verdict : Verdict) : Option (World ι) :=
  match w.evictions with
  | [] => none
  | evict :: evictions =>
    let w : World ι := { w with evictions := evictions, closed := evict.channel :: w.closed }
    let image := evict.channel.image
    match verdict with
    | .apiError | .running => w
    | .notFound | .dead =>
      w.setPods image ((w.functions image).pods.eraseP fun pod =>
        pod.podData.any fun d => d.podKey = evict.podKey)

def collect (pe : PodEvaluatorOptions) (image : Str) (now : Int) (executor : Option PodExecutor)
    (health : Str → Health) : World ι :=
  let ttl := (getParamsForImage pe executor).ttl
  let w := w.removeUnhealthyPods image health (some fun pod => ttl < now - pod.lastActivity)
  -- an image without pods is deleted from the map
  if (w.functions image).pods = [] then w.setFunction image {} else w

end World

/-! Steps -/

inductive Event (ι : Type) where
  | start (i : ι) (image : Str)
  | send (i : ι)
  | receive (i : ι)
  /-- The context ends. -/
  | cancel (i : ι)
  | finish (i : ι) (o : Outcome)
  | sendEviction (i : ι)
  | evicted (i : ι)
  | handleRequest (now : Int) (executor : Option PodExecutor) (between : List (ι × Outcome))
  | handleReady (image : Str) (postFix : Nat) (podKey : Option Str) (now : Int)
      (health : Str → World.Health) (races : List (World.Race ι))
  | handleEviction (verdict : World.Verdict)
  | collect (image : Str) (now : Int) (executor : Option PodExecutor) (health : Str → World.Health)
  /-- A pod of an earlier process is found at the start. -/
  | retrieve (image : Str) (postFix : Nat) (now : Int)
  /-- As `retrieve`, when the garbage collector has just deleted the image. -/
  | retrieveDeleted (image : Str) (postFix : Nat)
  | warm (image : Str) (now : Int)

namespace World

variable [DecidableEq ι] (pe : PodEvaluatorOptions) (w : World ι)

def call : Event ι → Phase ι → Option (World ι)
  | .start i image, .idle => w.goto i (.request ⟨image, i, 0⟩)
  | .send i, .request ch =>
    ({ w with requests := w.requests ++ [ch] } : World ι).goto i (.waiting ch)
  | .receive i, .waiting ch =>
    match w.responses ch with
    | [] => none
    | .error :: _ => w.goto i (.returned false)
    | .pod podKey counter :: _ => w.goto i (.evaluating ch podKey counter)
  | .cancel i, .waiting _ | .cancel i, .evict .. | .cancel i, .evicting _ => w.goto i (.returned false)
  | .sendEviction i, .evict ch podKey =>
    ({ w with evictions := w.evictions ++ [⟨ch, podKey⟩] } : World ι).goto i (.evicting ch)
  | .evicted i, .evicting ch =>
    if ch ∉ w.closed then none
    else if pe.maxGrpcRetries ≤ ch.attempt then w.goto i (.returned false)
    else w.goto i (.request { ch with attempt := ch.attempt + 1 })
  | _, _ => none

def step : Event ι → Option (World ι)
  | .start i image => w.call pe (.start i image) (w.phase i)
  | .send i => w.call pe (.send i) (w.phase i)
  | .receive i => w.call pe (.receive i) (w.phase i)
  | .cancel i => w.call pe (.cancel i) (w.phase i)
  | .finish i o => w.finish i o
  | .sendEviction i => w.call pe (.sendEviction i) (w.phase i)
  | .evicted i => w.call pe (.evicted i) (w.phase i)
  | .handleRequest now executor between => w.handleRequest pe now executor between
  | .handleReady image postFix podKey now health races =>
    w.handleReady image postFix podKey now health races
  | .handleEviction verdict => w.handleEviction verdict
  | .collect image now executor health => w.collect pe image now executor health
  | .retrieve image postFix now =>
    if (w.functions image).pods.length < pe.maxParallelPodsPerFunction then
      w.startPod image none now postFix
    else none
  | .retrieveDeleted image postFix =>
    let creating := update w.creating image (w.creating image ++ [postFix])
    ({ w with creating := creating } : World ι)
  | .warm image now =>
    if (w.functions image).pods = [] then w.startPod image none now 1 else none

end World

end Porch.PodEval
