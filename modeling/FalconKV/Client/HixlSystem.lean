import FalconKV.Client.HixlReads

/-! # Reads over HIXL, with the stores

Clients that read over HIXL, the services of the stores, and the requests and replies between
them. A request may be late, arrive twice or never, and a client may give up waiting for its
reply. A service answers `BatchRead` here with anything.
-/
namespace FalconKV
open AtomicCalls

inductive HixlMessage
  | prepareHixlBatchRead (segments : List BatchReadSegment) (clientId : ℕ) (sourceNodeAddr : String)
  | releaseHixlRead (token : String)
  deriving DecidableEq

structure HixlRequest where
  id : ℕ
  addr : String
  message : HixlMessage
  deriving DecidableEq

inductive HixlSystemCall
  /-- a call of a client, made for this request to read -/
  | atClient (client : ℕ) (request : RemoteReadRequest) (op : HixlReadCall)
  | send (addr : String) (message : HixlMessage)
  | await (request : HixlRequest)
  | receive (request : HixlRequest)
  | atStore (addr : String) (op : ServiceCall)
  | reply (request : HixlRequest) (reply : ServiceReply)

abbrev HixlSystemCall.Res : HixlSystemCall → Type
  | atClient _ _ op => op.Res
  | send .. => HixlRequest
  | await _ => Option ServiceReply
  | receive _ => Unit
  | atStore _ op => op.Res
  | reply .. => Unit

abbrev hixlSystemCalls : Signature := ⟨HixlSystemCall,HixlSystemCall.Res⟩

abbrev HixlSystemProg := Prog hixlSystemCalls

structure HixlSystemChoice where
  backend : HixlReadChoice := {}
  service : ServiceChoice := {}
  /-- the reply has come before the client gives up -/
  arrived : Bool := true
  /-- the request will be delivered once more -/
  again : Bool := false

structure HixlSystem where
  services : String → StoreService
  backends : ℕ → HixlRemoteReadBackend
  requests : List HixlRequest
  replies : List (HixlRequest × ServiceReply)
  nextId : ℕ

namespace HixlSystem

def init (stores : String → Store) : HixlSystem where
  services := fun addr => .create (stores addr)
  backends := fun _ => ⟨false⟩
  requests := []
  replies := []
  nextId := 0

def send (x : HixlSystem) (addr : String) (message : HixlMessage) : HixlRequest × HixlSystem :=
  let request : HixlRequest := ⟨x.nextId,addr,message⟩
  (request,{ x with requests := request :: x.requests, nextId := x.nextId + 1 })

def await (x : HixlSystem) (c : HixlSystemChoice) (request : HixlRequest) : Option ServiceReply × HixlSystem :=
  if c.arrived then
    match x.replies.find? fun y => y.1 == request with
    | none => (none,x)
    | some y => (some y.2,{ x with replies := x.replies.eraseP fun y => y.1 == request })
  else (none,x)

def receive (x : HixlSystem) (c : HixlSystemChoice) (request : HixlRequest) : Option (Unit × HixlSystem) :=
  if request ∈ x.requests then
    some ((),if c.again then x else { x with requests := x.requests.erase request })
  else none

def step (op : HixlSystemCall) (c : HixlSystemChoice) (x : HixlSystem) : Option (op.Res × HixlSystem) :=
  match op with
  | .atClient client _ op => ((x.backends client).step op c.backend).map fun y =>
    (y.1,{ x with backends := Function.update x.backends client y.2 })
  | .send addr message => some (x.send addr message)
  | .await request => some (x.await c request)
  | .receive request => x.receive c request
  | .atStore addr op => ((x.services addr).step op c.service).map fun y =>
    (y.1,{ x with services := Function.update x.services addr y.2 })
  | .reply request reply => some ((),{ x with replies := (request,reply) :: x.replies })

end HixlSystem

def hixlSystemMachine : Machine hixlSystemCalls HixlSystem := ⟨HixlSystemChoice,HixlSystem.step⟩

namespace HixlSystemOps

abbrev call (op : HixlSystemCall) : HixlSystemProg op.Res := Prog.perform (E := hixlSystemCalls) op

def prepared : Option ServiceReply → Option HixlBatchReadResponse
  | some (.prepareHixlBatchRead response) => some response
  | _ => none

def released : Option ServiceReply → Option ℤ
  | some (.releaseHixlRead _ status) => some status
  | _ => none

def remote (client : ℕ) (request : RemoteReadRequest) : (op : HixlReadCall) → HixlSystemProg op.Res
  | .prepareHixlBatchRead segments clientId sourceNodeAddr => do
    let sent ← call (.send request.storeAddr (.prepareHixlBatchRead segments clientId sourceNodeAddr))
    let reply ← call (.await sent)
    pure (prepared reply)
  | .releaseHixlRead tok => do
    let sent ← call (.send request.storeAddr (.releaseHixlRead tok))
    let reply ← call (.await sent)
    pure (released reply)
  | .getOrCreate addr => call (.atClient client request (.getOrCreate addr))
  | .batchRead segments => call (.atClient client request (.batchRead segments))
  | .ensureHixlInitialized localEngine =>
    call (.atClient client request (.ensureHixlInitialized localEngine))
  | .registerMem addr size => call (.atClient client request (.registerMem addr size))
  | .deregisterMem handle => call (.atClient client request (.deregisterMem handle))
  | .connect remoteEngine timeoutMs => call (.atClient client request (.connect remoteEngine timeoutMs))
  | .transferSync remoteEngine descs timeoutMs =>
    call (.atClient client request (.transferSync remoteEngine descs timeoutMs))

def batchRead (client : ℕ) (cfg : HixlReadConfig) (request : RemoteReadRequest) :
    HixlSystemProg (Status × List ℤ) :=
  (HixlReadOps.batchRead cfg request).interp (remote client request)

def onService {α : Type} (addr : String) (p : ServiceProg α) : HixlSystemProg α :=
  p.interp fun op => call (.atStore addr op)

end HixlSystemOps

def HixlMessage.toOp : HixlMessage → ServiceOp
  | prepareHixlBatchRead segments _ _ => .prepareHixlBatchRead (segments.map fun seg => ⟨seg.offset,seg.size⟩)
  | releaseHixlRead tok => .releaseHixlRead tok

structure HixlStores where
  cfg : String → StoreConfig
  engineAddr : String → String

inductive HixlSystemOp
  | batchRead (client : ℕ) (cfg : HixlReadConfig) (request : RemoteReadRequest)
  | serve (request : HixlRequest)
  | store (addr : String) (op : StoreOp)
  | batchGetByKey (addr : String) (keys : List Key)

inductive HixlSystemReply
  | read (status : Status) (results : List ℤ)
  | served (reply : ServiceReply)

def HixlSystemOp.run (stores : HixlStores) : HixlSystemOp → HixlSystemProg HixlSystemReply
  | batchRead client cfg request => do
    let (s,results) ← HixlSystemOps.batchRead client cfg request
    pure (.read s results)
  | serve request => do
    HixlSystemOps.call (.receive request)
    let reply ← HixlSystemOps.onService request.addr
      (request.message.toOp.run (stores.cfg request.addr) (stores.engineAddr request.addr))
    HixlSystemOps.call (.reply request reply)
    pure (.served reply)
  | store addr op => do
    let reply ← HixlSystemOps.onService addr
      ((ServiceOp.store op).run (stores.cfg addr) (stores.engineAddr addr))
    pure (.served reply)
  | batchGetByKey addr keys => do
    let reply ← HixlSystemOps.onService addr
      ((ServiceOp.batchGetByKey keys).run (stores.cfg addr) (stores.engineAddr addr))
    pure (.served reply)

end FalconKV
