import FalconKV.AtomicCalls.Ledgers
import FalconKV.Store.ReadFraming
import FalconKV.Store.StoreService

/-! # Reads of a client over HIXL

The remote store prepares buffers and answers with their addresses and a token. The client
registers its own buffers, reads, and takes everything back on each way out. The engine and
the remote store may answer anything. What the buffers contain afterwards is left out, and
so are the error texts of the RPC layer.
-/
namespace FalconKV
open AtomicCalls

structure RemoteReadRequest where
  storeAddr : String
  clientId : ℕ
  sourceNodeAddr : String
  offsets : List ℕ
  sizes : List ℕ
  buffers : List Allocation

/-- The part of the configuration that `BatchRead` consults, and the codes of the engine. -/
structure HixlReadConfig where
  /-- `rpc_manager_` is not null -/
  rpcManager : Bool
  hixlLocalEngine : String
  hixlFallbackToBrpc : Bool
  hixlTimeoutMs : ℤ
  /-- `hixl::ALREADY_CONNECTED`; `hixl::SUCCESS` is zero -/
  alreadyConnected : ℕ

structure TransferOpDesc where
  localAddr : ℕ
  remoteAddr : ℕ
  len : ℕ
  deriving DecidableEq, Repr

inductive HixlReadCall
  | getOrCreate (addr : String)
  | batchRead (segments : List BatchReadSegment)
  | ensureHixlInitialized (localEngine : String)
  | prepareHixlBatchRead (segments : List BatchReadSegment) (clientId : ℕ) (sourceNodeAddr : String)
  | releaseHixlRead (token : String)
  | registerMem (addr size : ℕ)
  | deregisterMem (handle : ℕ)
  | connect (remoteEngine : String) (timeoutMs : ℤ)
  | transferSync (remoteEngine : String) (descs : List TransferOpDesc) (timeoutMs : ℤ)

/-- An RPC that fails answers `none`; a call of the engine answers with its code. -/
abbrev HixlReadCall.Res : HixlReadCall → Type
  | getOrCreate _ => Bool
  | batchRead _ => Option BatchReadReply
  | ensureHixlInitialized _ => Status
  | prepareHixlBatchRead .. => Option HixlBatchReadResponse
  | releaseHixlRead _ => Option ℤ
  | registerMem .. => ℕ × ℕ
  | deregisterMem _ => Unit
  | connect .. => ℕ
  | transferSync .. => ℕ

abbrev hixlReadCalls : Signature := ⟨HixlReadCall,HixlReadCall.Res⟩

abbrev HixlReadProg := Prog hixlReadCalls

structure HixlReadChoice where
  created : Bool := true
  reply : Option BatchReadReply := none
  response : Option HixlBatchReadResponse := none
  releaseStatus : Option ℤ := some 0
  code : ℕ := 0
  handle : ℕ := 0

/-- The backend remembers that its engine is initialized. -/
structure HixlRemoteReadBackend where
  hixlInitialized : Bool

namespace HixlRemoteReadBackend

def ensureHixlInitialized (s : HixlRemoteReadBackend) (localEngine : String) (code : ℕ) :
    Status × HixlRemoteReadBackend :=
  if s.hixlInitialized then (.OK,s)
  else if localEngine.isEmpty then (.invalidArg "transfer.hixl_local_engine is empty",s)
  else if code ≠ 0 then (.rpcError ("HIXL Initialize failed: " ++ toString code),s)
  else (.OK,⟨true⟩)

def step (op : HixlReadCall) (c : HixlReadChoice) (s : HixlRemoteReadBackend) :
    Option (op.Res × HixlRemoteReadBackend) :=
  match op with
  | .getOrCreate addr => some (!addr.isEmpty && c.created,s)
  | .batchRead _ => some (c.reply,s)
  | .ensureHixlInitialized localEngine => some (s.ensureHixlInitialized localEngine c.code)
  | .prepareHixlBatchRead .. => some (c.response,s)
  | .releaseHixlRead _ => some (c.releaseStatus,s)
  | .registerMem .. => some ((c.code,c.handle),s)
  | .deregisterMem _ => some ((),s)
  | .connect .. => some (c.code,s)
  | .transferSync .. => some (c.code,s)

end HixlRemoteReadBackend

def hixlReadMachine : Machine hixlReadCalls HixlRemoteReadBackend :=
  ⟨HixlReadChoice,HixlRemoteReadBackend.step⟩

def StoreRpcClient.prepared (response : Option HixlBatchReadResponse) :
    Except Status HixlBatchReadResponse :=
  match response with
  | none => .error (.rpcError "PrepareHixlBatchRead RPC failed: ")
  | some r =>
    if r.status ≠ 0 then
      .error (.rpcError ("PrepareHixlBatchRead failed with status: " ++ toString r.status))
    else .ok r

namespace RemoteReadRequest
variable (request : RemoteReadRequest)

def validate : Status :=
  let n := request.offsets.length
  if n ≠ request.sizes.length ∨ n ≠ request.buffers.length then
    .invalidArg "remote read request size mismatch"
  else if request.storeAddr.isEmpty then .invalidArg "remote read store address is empty"
  else .OK

/-- `results.assign(request.offsets.size(), -1)`. -/
def failed (s : Status) : Status × List ℤ := (s,request.offsets.map fun _ => -1)

def segments : List BatchReadSegment := List.zipWith BatchReadSegment.mk request.offsets request.sizes

end RemoteReadRequest

namespace HixlReadOps

abbrev ask (op : HixlReadCall) : HixlReadProg op.Res := Prog.perform (E := hixlReadCalls) op

def brpcBatchRead (cfg : HixlReadConfig) (request : RemoteReadRequest) : HixlReadProg (Status × List ℤ) :=
  if !request.validate.isOk then pure (request.failed request.validate)
  else if !cfg.rpcManager then pure (request.failed (.invalidArg "StoreRpcClientManager is null"))
  else do
    let created ← ask (.getOrCreate request.storeAddr)
    if !created then
      pure (request.failed (.rpcError ("failed to create StoreRpcClient for " ++ request.storeAddr)))
    else if request.offsets.length = 0 then pure (.OK,[])
    else do
      let reply ← ask (.batchRead request.segments)
      let (s,results,_) := StoreRpcClient.batchRead true request.offsets request.sizes
        (request.buffers.map Allocation.bytes) [] fun _ => reply
      pure (s,results)

def deregisterAll (handles : List ℕ) : HixlReadProg Unit :=
  Prog.forEach (fun h => ask (.deregisterMem h)) handles

def usable (seg : ℕ × ℕ × ℤ) : Bool := seg.2.2 == 0 && seg.2.1 != 0

def registerBuffers (request : RemoteReadRequest) (token : String) :
    List ((Allocation × ℕ) × ℕ × ℕ × ℤ) → List ℕ → List TransferOpDesc →
      HixlReadProg (Except (Status × List ℤ) (List ℕ × List TransferOpDesc))
  | [], handles, descs => pure (.ok (handles,descs))
  | ((buffer,size),seg) :: rest, handles, descs =>
    if !usable seg then do
      let _ ← ask (.releaseHixlRead token)
      pure (.error (request.failed (.ioError "HIXL prepare returned invalid segment")))
    else do
      let (code,handle) ← ask (.registerMem buffer.ptr size)
      if code ≠ 0 then do
        deregisterAll handles
        let _ ← ask (.releaseHixlRead token)
        pure (.error (request.failed (.rpcError ("HIXL RegisterMem failed: " ++ toString code))))
      else
        registerBuffers request token rest (handles ++ [handle])
          (descs ++ [⟨buffer.ptr,seg.1,seg.2.1⟩])

def transfer (cfg : HixlReadConfig) (request : RemoteReadRequest) (response : HixlBatchReadResponse)
    (handles : List ℕ) (descs : List TransferOpDesc) : HixlReadProg (Status × List ℤ) := do
  let conn ← ask (.connect response.remoteEngine cfg.hixlTimeoutMs)
  if conn ≠ 0 ∧ conn ≠ cfg.alreadyConnected then do
    deregisterAll handles
    let _ ← ask (.releaseHixlRead response.token)
    pure (request.failed (.rpcError ("HIXL Connect failed: " ++ toString conn)))
  else do
    let code ← ask (.transferSync response.remoteEngine descs cfg.hixlTimeoutMs)
    deregisterAll handles
    let _ ← ask (.releaseHixlRead response.token)
    if code ≠ 0 then
      pure (request.failed (.rpcError ("HIXL TransferSync READ failed: " ++ toString code)))
    else pure (.OK,request.sizes.map int32)

def readPrepared (cfg : HixlReadConfig) (request : RemoteReadRequest)
    (response : HixlBatchReadResponse) : HixlReadProg (Status × List ℤ) :=
  if response.segments.length ≠ request.offsets.length then do
    let _ ← ask (.releaseHixlRead response.token)
    pure (request.failed (.ioError "HIXL prepare segment count mismatch"))
  else do
    let registered ← registerBuffers request response.token
      ((request.buffers.zip request.sizes).zip response.segments) [] []
    match registered with
    | .error x => pure x
    | .ok (handles,descs) => transfer cfg request response handles descs

def orFallback (cfg : HixlReadConfig) (request : RemoteReadRequest) (s : Status) :
    HixlReadProg (Status × List ℤ) :=
  if cfg.hixlFallbackToBrpc then brpcBatchRead cfg request else pure (request.failed s)

/-- `HixlRemoteReadBackend::BatchRead`. -/
def batchRead (cfg : HixlReadConfig) (request : RemoteReadRequest) : HixlReadProg (Status × List ℤ) :=
  if !request.validate.isOk then pure (request.failed request.validate)
  else if !cfg.rpcManager then pure (request.failed (.invalidArg "StoreRpcClientManager is null"))
  else do
    let init ← ask (.ensureHixlInitialized cfg.hixlLocalEngine)
    if !init.isOk then orFallback cfg request init
    else do
      let created ← ask (.getOrCreate request.storeAddr)
      if !created then
        pure (request.failed (.rpcError ("failed to create StoreRpcClient for " ++ request.storeAddr)))
      else do
        let response ← ask
          (.prepareHixlBatchRead request.segments request.clientId request.sourceNodeAddr)
        match StoreRpcClient.prepared response with
        | .error s => orFallback cfg request s
        | .ok response => readPrepared cfg request response

end HixlReadOps

end FalconKV
