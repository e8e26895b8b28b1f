import FalconKV.Config.Settings

/-! # The precedence of settings

For each field of a module its own variable decides, then the section of the module, then, if
the field is one that `common` propagates, the common value, then the default. A layer sets a
field to what its text or its member stands for in the type of the field. The loader has two ways
to miss this: the common values go over the sections once more with the environment, and two
fields of 64 bits go through 32 bits.
-/
namespace FalconKV

namespace ConfigLoader
open Layers

/-- What one load reads: a document and an environment. -/
structure Inputs (Value : Type) where
  json : JsonLibrary Value
  env : Environment
  root : Value

/-- A field that `common` propagates: its own variable if it has one, the member of its name in
the section of its module, and the common layers below. -/
structure Propagated (α : Type) where
  own : List (Option α)
  inModule : Option α
  common : List (Option α)
  default : α

namespace Propagated
variable {α : Type}

def value (field : Propagated α) (heeded : Bool) : α :=
  if heeded then resolve (field.own ++ field.inModule :: field.common) field.default
  else resolve (field.own ++ field.common) field.default

def Undisturbed (field : Propagated α) : Prop :=
  Redundant field.own field.inModule field.common field.default

theorem value_eq_iff {field : Propagated α} :
    field.value false = field.value true ↔ field.Undisturbed := resolve_skip_iff

theorem Undisturbed.value_eq {field : Propagated α} (h : field.Undisturbed) :
    field.value false = field.value true := value_eq_iff.mpr h

end Propagated

def defaults : FalconKVConfig := {}

namespace Inputs
variable {Value : Type} (x : Inputs Value)

def inSection {α : Type} (module name : String) (asT : Value → Except String α) : Option α :=
  setting x.json x.root module name asT

def strings (key module name : String) : List (Option String) :=
  [envString x.env key,x.inSection module name x.json.asString]

def ints (key module name : String) : List (Option ℤ) :=
  [envInt x.env key,x.inSection module name x.json.asInt]

def uints (key module name : String) : List (Option ℕ) :=
  [envUInt x.env key,x.inSection module name x.json.asUInt]

def uint64s (key module name : String) : List (Option ℕ) :=
  [envUInt64 x.env key,x.inSection module name x.json.asUInt64]

def doubles (key module name : String) : List (Option Float) :=
  [envDouble x.env key,x.inSection module name x.json.asDouble]

def flags (key module name : String) : List (Option Bool) :=
  [envFlag x.env key,x.inSection module name x.json.asBool]

def commonMetaAddr : List (Option String) := x.strings "FALCONKV_META_ADDR" "common" "meta_addr"

def commonNodeId : List (Option ℕ) := x.uints "FALCONKV_NODE_ID" "common" "node_id"

def commonSchedulerEnabled : List (Option Bool) :=
  x.flags "FALCONKV_SCHEDULER_ENABLED" "common" "scheduler_enabled"

def commonSchedulerUdsPath : List (Option String) :=
  x.strings "FALCONKV_SCHEDULER_UDS_PATH" "common" "scheduler_uds_path"

def commonSchedulerRpcTimeoutUs : List (Option ℤ) :=
  x.ints "FALCONKV_SCHEDULER_RPC_TIMEOUT_US" "common" "scheduler_rpc_timeout_us"

def commonMaxConsecutiveFailures : List (Option ℤ) :=
  x.ints "FALCONKV_MAX_CONSECUTIVE_FAILURES" "common" "max_consecutive_failures"

def commonReconnectIntervalSec : List (Option ℤ) :=
  x.ints "FALCONKV_RECONNECT_INTERVAL_SEC" "common" "reconnect_interval_sec"

def storeNodeId : Propagated ℕ :=
  ⟨[envUInt x.env "FALCONKV_STORE_NODE_ID"],x.inSection "store" "node_id" x.json.asUInt,
    x.commonNodeId,defaults.store.nodeId⟩

def storeSchedulerEnabled : Propagated Bool :=
  ⟨[],x.inSection "store" "scheduler_enabled" x.json.asBool,
    x.commonSchedulerEnabled,defaults.store.schedulerEnabled⟩

def storeSchedulerUdsPath : Propagated String :=
  ⟨[],x.inSection "store" "scheduler_uds_path" x.json.asString,
    x.commonSchedulerUdsPath,defaults.store.schedulerUdsPath⟩

def storeSchedulerRpcTimeoutUs : Propagated ℤ :=
  ⟨[],x.inSection "store" "scheduler_rpc_timeout_us" x.json.asInt,
    x.commonSchedulerRpcTimeoutUs,defaults.store.schedulerRpcTimeoutUs⟩

def storeMaxConsecutiveFailures : Propagated ℤ :=
  ⟨[],x.inSection "store" "max_consecutive_failures" x.json.asInt,
    x.commonMaxConsecutiveFailures,defaults.store.maxConsecutiveFailures⟩

def storeReconnectIntervalSec : Propagated ℤ :=
  ⟨[],x.inSection "store" "reconnect_interval_sec" x.json.asInt,
    x.commonReconnectIntervalSec,defaults.store.reconnectIntervalSec⟩

def storeMetaAddr : Propagated String :=
  ⟨[],x.inSection "store" "meta_addr" x.json.asString,x.commonMetaAddr,defaults.store.metaAddr⟩

def schedulerUdsPath : Propagated String :=
  ⟨[envString x.env "FALCONKV_SCHED_UDS_PATH"],
    x.inSection "scheduler" "uds_path" x.json.asString,
    x.commonSchedulerUdsPath,defaults.scheduler.udsPath⟩

def schedulerRpcTimeoutUs : Propagated ℤ :=
  ⟨[],x.inSection "scheduler" "rpc_timeout_us" x.json.asInt,
    x.commonSchedulerRpcTimeoutUs,defaults.scheduler.rpcTimeoutUs⟩

def schedulerMaxConsecutiveFailures : Propagated ℤ :=
  ⟨[],x.inSection "scheduler" "max_consecutive_failures" x.json.asInt,
    x.commonMaxConsecutiveFailures,defaults.scheduler.maxConsecutiveFailures⟩

def schedulerReconnectIntervalSec : Propagated ℤ :=
  ⟨[],x.inSection "scheduler" "reconnect_interval_sec" x.json.asInt,
    x.commonReconnectIntervalSec,defaults.scheduler.reconnectIntervalSec⟩

def clientSchedulerEnabled : Propagated Bool :=
  ⟨[],x.inSection "client" "scheduler_enabled" x.json.asBool,
    x.commonSchedulerEnabled,defaults.client.schedulerEnabled⟩

def clientSchedulerUdsPath : Propagated String :=
  ⟨[envString x.env "FALCONKV_CLIENT_SCHEDULER_UDS_PATH"],
    x.inSection "client" "scheduler_uds_path" x.json.asString,
    x.commonSchedulerUdsPath,defaults.client.schedulerUdsPath⟩

def clientSchedulerRpcTimeoutUs : Propagated ℤ :=
  ⟨[],x.inSection "client" "scheduler_rpc_timeout_us" x.json.asInt,
    x.commonSchedulerRpcTimeoutUs,defaults.client.schedulerRpcTimeoutUs⟩

def clientMaxConsecutiveFailures : Propagated ℤ :=
  ⟨[],x.inSection "client" "max_consecutive_failures" x.json.asInt,
    x.commonMaxConsecutiveFailures,defaults.client.maxConsecutiveFailures⟩

def clientReconnectIntervalSec : Propagated ℤ :=
  ⟨[],x.inSection "client" "reconnect_interval_sec" x.json.asInt,
    x.commonReconnectIntervalSec,defaults.client.reconnectIntervalSec⟩

def clientNodeId : Propagated ℕ :=
  ⟨[envUInt x.env "FALCONKV_CLIENT_NODE_ID"],x.inSection "client" "node_id" x.json.asUInt,
    x.commonNodeId,defaults.client.nodeId⟩

def transferMetaAddr : Propagated String :=
  ⟨[envString x.env "FALCONKV_TRANSFER_META_ADDR"],
    x.inSection "transfer" "meta_addr" x.json.asString,
    x.commonMetaAddr,defaults.transfer.metaAddr⟩

/-- `udsPath` tells whether `uds_path` in the section of the scheduler counts, and `others` the
same of the members with the names of the other propagated fields, which no parser reads. -/
def assemble (udsPath others : Bool) : FalconKVConfig where
  common := {
    metaAddr := resolve x.commonMetaAddr defaults.common.metaAddr
    nodeId := resolve x.commonNodeId defaults.common.nodeId
    schedulerEnabled := resolve x.commonSchedulerEnabled defaults.common.schedulerEnabled
    schedulerUdsPath := resolve x.commonSchedulerUdsPath defaults.common.schedulerUdsPath
    schedulerRpcTimeoutUs := resolve x.commonSchedulerRpcTimeoutUs
      defaults.common.schedulerRpcTimeoutUs
    maxConsecutiveFailures := resolve x.commonMaxConsecutiveFailures
      defaults.common.maxConsecutiveFailures
    reconnectIntervalSec := resolve x.commonReconnectIntervalSec
      defaults.common.reconnectIntervalSec
    logDir := resolve (x.strings "FALCONKV_LOG_DIR" "common" "log_dir") defaults.common.logDir }
  metaConfig := {
    shardCount := resolve (x.ints "FALCONKV_SHARD_COUNT" "meta" "shard_count")
      defaults.metaConfig.shardCount
    pageSize := resolve (x.uints "FALCONKV_PAGE_SIZE" "meta" "page_size")
      defaults.metaConfig.pageSize
    heartbeatTimeoutSec :=
      resolve (x.ints "FALCONKV_HEARTBEAT_TIMEOUT_SEC" "meta" "heartbeat_timeout_sec")
        defaults.metaConfig.heartbeatTimeoutSec }
  store := {
    ssdPath := resolve (x.strings "FALCONKV_SSD_PATH" "store" "ssd_path") defaults.store.ssdPath
    storeId := resolve (x.uints "FALCONKV_STORE_ID" "store" "store_id") defaults.store.storeId
    nodeId := x.storeNodeId.value others
    capacityBytes := resolve [x.inSection "store" "capacity_gb" x.json.asGigabytes]
      defaults.store.capacityBytes
    pageSize := resolve (x.uints "FALCONKV_STORE_PAGE_SIZE" "store" "page_size")
      defaults.store.pageSize
    ioThreads := resolve (x.uints "FALCONKV_IO_THREADS" "store" "io_threads")
      defaults.store.ioThreads
    alignment := resolve (x.uints "FALCONKV_ALIGNMENT" "store" "alignment") defaults.store.alignment
    listenPort := resolve (x.uints "FALCONKV_STORE_LISTEN_PORT" "store" "listen_port")
      defaults.store.listenPort
    heartbeatSec := resolve (x.uints "FALCONKV_STORE_HEARTBEAT_SEC" "store" "heartbeat_sec")
      defaults.store.heartbeatSec
    schedulerEnabled := x.storeSchedulerEnabled.value others
    schedulerUdsPath := x.storeSchedulerUdsPath.value others
    schedulerRpcTimeoutUs := x.storeSchedulerRpcTimeoutUs.value others
    maxConsecutiveFailures := x.storeMaxConsecutiveFailures.value others
    reconnectIntervalSec := x.storeReconnectIntervalSec.value others
    storeRpcHost := resolve [x.inSection "store" "store_rpc_host" x.json.asString]
      defaults.store.storeRpcHost
    metaAddr := x.storeMetaAddr.value others
    evictGracePeriodMs :=
      resolve (x.uints "FALCONKV_EVICT_GRACE_PERIOD_MS" "store" "evict_grace_period_ms")
        defaults.store.evictGracePeriodMs
    evictCheckIntervalSec :=
      resolve (x.uints "FALCONKV_EVICT_CHECK_INTERVAL_SEC" "store" "evict_check_interval_sec")
        defaults.store.evictCheckIntervalSec
    evictHighWatermark :=
      resolve (x.doubles "FALCONKV_EVICT_HIGH_WATERMARK" "store" "evict_high_watermark")
        defaults.store.evictHighWatermark
    evictLowWatermark :=
      resolve (x.doubles "FALCONKV_EVICT_LOW_WATERMARK" "store" "evict_low_watermark")
        defaults.store.evictLowWatermark
    evictColdThresholdMs :=
      resolve (x.uint64s "FALCONKV_EVICT_COLD_THRESHOLD_MS" "store" "evict_cold_threshold_ms")
        defaults.store.evictColdThresholdMs
    ioUringEnabled := resolve (x.flags "FALCONKV_IO_URING_ENABLED" "store" "io_uring_enabled")
      defaults.store.ioUringEnabled
    directIoEnabled := resolve (x.flags "FALCONKV_DIRECT_IO_ENABLED" "store" "direct_io_enabled")
      defaults.store.directIoEnabled
    ioUringQueueDepth :=
      resolve (x.uints "FALCONKV_IO_URING_QUEUE_DEPTH" "store" "io_uring_queue_depth")
        defaults.store.ioUringQueueDepth
    slotSizeBytes := resolve (x.uints "FALCONKV_SLOT_SIZE_BYTES" "store" "slot_size_bytes")
      defaults.store.slotSizeBytes
    hixlEngineAddr :=
      resolve (x.strings "FALCONKV_STORE_HIXL_ENGINE_ADDR" "store" "hixl_engine_addr")
        defaults.store.hixlEngineAddr
    hixlLocalCommRes :=
      resolve (x.strings "FALCONKV_STORE_HIXL_LOCAL_COMM_RES" "store" "hixl_local_comm_res")
        defaults.store.hixlLocalCommRes
    hixlGlobalResourceConfig :=
      resolve (x.strings "FALCONKV_STORE_HIXL_GLOBAL_RESOURCE_CONFIG" "store"
        "hixl_global_resource_config") defaults.store.hixlGlobalResourceConfig
    hixlProtocolDesc :=
      resolve (x.strings "FALCONKV_STORE_HIXL_PROTOCOL_DESC" "store" "hixl_protocol_desc")
        defaults.store.hixlProtocolDesc
    hixlBufferPool :=
      resolve (x.strings "FALCONKV_STORE_HIXL_BUFFER_POOL" "store" "hixl_buffer_pool")
        defaults.store.hixlBufferPool
    hixlRdmaTrafficClass :=
      resolve (x.ints "FALCONKV_STORE_HIXL_RDMA_TRAFFIC_CLASS" "store" "hixl_rdma_traffic_class")
        defaults.store.hixlRdmaTrafficClass
    hixlRdmaServiceLevel :=
      resolve (x.ints "FALCONKV_STORE_HIXL_RDMA_SERVICE_LEVEL" "store" "hixl_rdma_service_level")
        defaults.store.hixlRdmaServiceLevel }
  scheduler := {
    udsPath := x.schedulerUdsPath.value udsPath
    schedulePolicy := resolve (x.strings "FALCONKV_SCHEDULE_POLICY" "scheduler" "schedule_policy")
      defaults.scheduler.schedulePolicy
    ssdBwLimitMbps :=
      resolve (x.doubles "FALCONKV_SSD_BW_LIMIT_MBPS" "scheduler" "ssd_bw_limit_mbps")
        defaults.scheduler.ssdBwLimitMbps
    netBwLimitMbps :=
      resolve (x.doubles "FALCONKV_NET_BW_LIMIT_MBPS" "scheduler" "net_bw_limit_mbps")
        defaults.scheduler.netBwLimitMbps
    statsReportIntervalSec :=
      resolve (x.ints "FALCONKV_STATS_REPORT_INTERVAL_SEC" "scheduler" "stats_report_interval_sec")
        defaults.scheduler.statsReportIntervalSec
    statsWindowMs := resolve [x.inSection "scheduler" "stats_window_ms" x.json.asInt]
      defaults.scheduler.statsWindowMs
    rpcTimeoutUs := x.schedulerRpcTimeoutUs.value others
    maxConsecutiveFailures := x.schedulerMaxConsecutiveFailures.value others
    reconnectIntervalSec := x.schedulerReconnectIntervalSec.value others }
  client := {
    cacheCapacity := resolve (x.uint64s "FALCONKV_CLIENT_CACHE_CAPACITY" "client" "cache_capacity")
      defaults.client.cacheCapacity
    asyncBatchSize := resolve (x.ints "FALCONKV_ASYNC_BATCH_SIZE" "client" "async_batch_size")
      defaults.client.asyncBatchSize
    fireAndForget := resolve [x.inSection "client" "fire_and_forget" x.json.asBool]
      defaults.client.fireAndForget
    schedulerEnabled := x.clientSchedulerEnabled.value others
    schedulerUdsPath := x.clientSchedulerUdsPath.value others
    schedulerRpcTimeoutUs := x.clientSchedulerRpcTimeoutUs.value others
    maxConsecutiveFailures := x.clientMaxConsecutiveFailures.value others
    reconnectIntervalSec := x.clientReconnectIntervalSec.value others
    nodeId := x.clientNodeId.value others }
  transfer := {
    protocol := resolve (x.strings "FALCONKV_TRANSFER_PROTOCOL" "transfer" "protocol")
      defaults.transfer.protocol
    dataProtocol := resolve (x.strings "FALCONKV_TRANSFER_DATA_PROTOCOL" "transfer" "data_protocol")
      defaults.transfer.dataProtocol
    hixlFallbackToBrpc :=
      resolve (x.flags "FALCONKV_HIXL_FALLBACK_TO_BRPC" "transfer" "hixl_fallback_to_brpc")
        defaults.transfer.hixlFallbackToBrpc
    hixlLocalEngine :=
      resolve (x.strings "FALCONKV_HIXL_LOCAL_ENGINE" "transfer" "hixl_local_engine")
        defaults.transfer.hixlLocalEngine
    hixlLocalCommRes :=
      resolve (x.strings "FALCONKV_HIXL_LOCAL_COMM_RES" "transfer" "hixl_local_comm_res")
        defaults.transfer.hixlLocalCommRes
    hixlGlobalResourceConfig :=
      resolve (x.strings "FALCONKV_HIXL_GLOBAL_RESOURCE_CONFIG" "transfer"
        "hixl_global_resource_config") defaults.transfer.hixlGlobalResourceConfig
    hixlProtocolDesc :=
      resolve (x.strings "FALCONKV_HIXL_PROTOCOL_DESC" "transfer" "hixl_protocol_desc")
        defaults.transfer.hixlProtocolDesc
    hixlBufferPool := resolve (x.strings "FALCONKV_HIXL_BUFFER_POOL" "transfer" "hixl_buffer_pool")
      defaults.transfer.hixlBufferPool
    hixlRdmaTrafficClass :=
      resolve (x.ints "FALCONKV_HIXL_RDMA_TRAFFIC_CLASS" "transfer" "hixl_rdma_traffic_class")
        defaults.transfer.hixlRdmaTrafficClass
    hixlRdmaServiceLevel :=
      resolve (x.ints "FALCONKV_HIXL_RDMA_SERVICE_LEVEL" "transfer" "hixl_rdma_service_level")
        defaults.transfer.hixlRdmaServiceLevel
    hixlTimeoutMs := resolve (x.ints "FALCONKV_HIXL_TIMEOUT_MS" "transfer" "hixl_timeout_ms")
      defaults.transfer.hixlTimeoutMs
    metaAddr := x.transferMetaAddr.value others
    metaPoolSize := resolve (x.ints "FALCONKV_META_POOL_SIZE" "transfer" "meta_pool_size")
      defaults.transfer.metaPoolSize
    storePoolSize := resolve (x.ints "FALCONKV_STORE_POOL_SIZE" "transfer" "store_pool_size")
      defaults.transfer.storePoolSize
    rpcTimeoutMs := resolve (x.ints "FALCONKV_RPC_TIMEOUT_MS" "transfer" "rpc_timeout_ms")
      defaults.transfer.rpcTimeoutMs
    connectTimeoutMs :=
      resolve (x.ints "FALCONKV_CONNECT_TIMEOUT_MS" "transfer" "connect_timeout_ms")
        defaults.transfer.connectTimeoutMs
    maxRetry := resolve (x.ints "FALCONKV_MAX_RETRY" "transfer" "max_retry")
      defaults.transfer.maxRetry }

end Inputs

/-- Which members of the sections are settings: those that a parser reads, or all that have the
name of a field. -/
inductive Reading
  | parsed
  | named
  deriving DecidableEq

namespace Inputs
variable {Value : Type} (x : Inputs Value)

/-- Each field has the value that its layers give it. -/
def layered : Reading → FalconKVConfig
  | .parsed => x.assemble true false
  | .named => x.assemble true true

structure UnreadUndisturbed : Prop where
  storeNodeId : x.storeNodeId.Undisturbed
  storeSchedulerEnabled : x.storeSchedulerEnabled.Undisturbed
  storeSchedulerUdsPath : x.storeSchedulerUdsPath.Undisturbed
  storeSchedulerRpcTimeoutUs : x.storeSchedulerRpcTimeoutUs.Undisturbed
  storeMaxConsecutiveFailures : x.storeMaxConsecutiveFailures.Undisturbed
  storeReconnectIntervalSec : x.storeReconnectIntervalSec.Undisturbed
  storeMetaAddr : x.storeMetaAddr.Undisturbed
  schedulerRpcTimeoutUs : x.schedulerRpcTimeoutUs.Undisturbed
  schedulerMaxConsecutiveFailures : x.schedulerMaxConsecutiveFailures.Undisturbed
  schedulerReconnectIntervalSec : x.schedulerReconnectIntervalSec.Undisturbed
  clientSchedulerEnabled : x.clientSchedulerEnabled.Undisturbed
  clientSchedulerUdsPath : x.clientSchedulerUdsPath.Undisturbed
  clientSchedulerRpcTimeoutUs : x.clientSchedulerRpcTimeoutUs.Undisturbed
  clientMaxConsecutiveFailures : x.clientMaxConsecutiveFailures.Undisturbed
  clientReconnectIntervalSec : x.clientReconnectIntervalSec.Undisturbed
  clientNodeId : x.clientNodeId.Undisturbed
  transferMetaAddr : x.transferMetaAddr.Undisturbed

/-- The conditions under which no setting is lost: `uds_path` is set by its own variable or agrees
with the common value, and the two fields of 64 bits are set to what 32 bits hold. -/
structure Kept (reading : Reading) : Prop where
  udsPath : x.schedulerUdsPath.Undisturbed
  unread : reading = .named → x.UnreadUndisturbed
  evictColdThresholdMs : resolve (x.uint64s "FALCONKV_EVICT_COLD_THRESHOLD_MS" "store"
    "evict_cold_threshold_ms") defaults.store.evictColdThresholdMs < 2^32
  cacheCapacity : resolve (x.uint64s "FALCONKV_CLIENT_CACHE_CAPACITY" "client" "cache_capacity")
    defaults.client.cacheCapacity < 2^32

end Inputs

def environmentKeys : List String :=
  ["FALCONKV_META_ADDR", "FALCONKV_NODE_ID", "FALCONKV_SCHEDULER_ENABLED",
    "FALCONKV_SCHEDULER_UDS_PATH", "FALCONKV_SCHEDULER_RPC_TIMEOUT_US",
    "FALCONKV_MAX_CONSECUTIVE_FAILURES", "FALCONKV_RECONNECT_INTERVAL_SEC", "FALCONKV_LOG_DIR",
    "FALCONKV_SHARD_COUNT", "FALCONKV_PAGE_SIZE", "FALCONKV_HEARTBEAT_TIMEOUT_SEC",
    "FALCONKV_SSD_PATH", "FALCONKV_STORE_ID", "FALCONKV_STORE_NODE_ID", "FALCONKV_STORE_PAGE_SIZE",
    "FALCONKV_IO_THREADS", "FALCONKV_ALIGNMENT", "FALCONKV_STORE_LISTEN_PORT",
    "FALCONKV_STORE_HEARTBEAT_SEC", "FALCONKV_EVICT_GRACE_PERIOD_MS",
    "FALCONKV_EVICT_CHECK_INTERVAL_SEC", "FALCONKV_EVICT_HIGH_WATERMARK",
    "FALCONKV_EVICT_LOW_WATERMARK", "FALCONKV_EVICT_COLD_THRESHOLD_MS",
    "FALCONKV_IO_URING_ENABLED", "FALCONKV_DIRECT_IO_ENABLED", "FALCONKV_IO_URING_QUEUE_DEPTH",
    "FALCONKV_SLOT_SIZE_BYTES", "FALCONKV_STORE_HIXL_ENGINE_ADDR",
    "FALCONKV_STORE_HIXL_LOCAL_COMM_RES", "FALCONKV_STORE_HIXL_GLOBAL_RESOURCE_CONFIG",
    "FALCONKV_STORE_HIXL_PROTOCOL_DESC", "FALCONKV_STORE_HIXL_BUFFER_POOL",
    "FALCONKV_STORE_HIXL_RDMA_TRAFFIC_CLASS", "FALCONKV_STORE_HIXL_RDMA_SERVICE_LEVEL",
    "FALCONKV_SCHED_UDS_PATH", "FALCONKV_SCHEDULE_POLICY", "FALCONKV_SSD_BW_LIMIT_MBPS",
    "FALCONKV_NET_BW_LIMIT_MBPS", "FALCONKV_STATS_REPORT_INTERVAL_SEC",
    "FALCONKV_CLIENT_CACHE_CAPACITY", "FALCONKV_ASYNC_BATCH_SIZE",
    "FALCONKV_CLIENT_SCHEDULER_UDS_PATH", "FALCONKV_CLIENT_NODE_ID", "FALCONKV_TRANSFER_PROTOCOL",
    "FALCONKV_TRANSFER_DATA_PROTOCOL", "FALCONKV_HIXL_FALLBACK_TO_BRPC",
    "FALCONKV_HIXL_LOCAL_ENGINE", "FALCONKV_HIXL_LOCAL_COMM_RES",
    "FALCONKV_HIXL_GLOBAL_RESOURCE_CONFIG", "FALCONKV_HIXL_PROTOCOL_DESC",
    "FALCONKV_HIXL_BUFFER_POOL", "FALCONKV_HIXL_RDMA_TRAFFIC_CLASS",
    "FALCONKV_HIXL_RDMA_SERVICE_LEVEL", "FALCONKV_HIXL_TIMEOUT_MS", "FALCONKV_TRANSFER_META_ADDR",
    "FALCONKV_META_POOL_SIZE", "FALCONKV_STORE_POOL_SIZE", "FALCONKV_RPC_TIMEOUT_MS",
    "FALCONKV_CONNECT_TIMEOUT_MS", "FALCONKV_MAX_RETRY"]

def Environment.Unset (env : Environment) : Prop := ∀ key ∈ environmentKeys, env.getenv key = none

def Environment.cleared (env : Environment) : Environment := { env with getenv := fun _ => none }

namespace Inputs
variable {Value : Type} {x : Inputs Value} {parsed : FalconKVConfig}

/-- The document alone. -/
def cleared (x : Inputs Value) : Inputs Value := { x with env := x.env.cleared }

def narrowed (config : FalconKVConfig) : FalconKVConfig :=
  { config with
    store := { config.store with evictColdThresholdMs := u32 config.store.evictColdThresholdMs }
    client := { config.client with cacheCapacity := u32 config.client.cacheCapacity } }

/-- The parsers get the precedence within the document right. -/
theorem parseSections_eq (h : parseSections x.json x.root {} = .ok parsed) :
    parsed = x.cleared.layered .parsed := by
  rw [parseSections] at h
  obtain ⟨common,hcommon,h⟩ := ok_bind h
  obtain ⟨metaConfig,hmeta,h⟩ := ok_bind h
  obtain ⟨store,hstore,h⟩ := ok_bind h
  obtain ⟨scheduler,hscheduler,h⟩ := ok_bind h
  obtain ⟨client,hclient,h⟩ := ok_bind h
  obtain ⟨transfer,htransfer,h⟩ := ok_bind h
  obtain rfl := parseCommonConfig_eq hcommon
  obtain rfl := parseMetaConfig_eq hmeta
  obtain rfl := parseStoreConfig_eq hstore
  obtain rfl := parseSchedulerConfig_eq hscheduler
  obtain rfl := parseClientConfig_eq hclient
  obtain rfl := parseTransferConfig_eq htransfer
  cases h
  rfl

/-- The overrides write the common values over what the sections set. -/
theorem applyEnvOverrides_eq :
    applyEnvOverrides x.env (x.cleared.layered .parsed) = narrowed (x.assemble false false) := by
  -- the two fields of 64 bits first, before the others of their kind
  simp only [applyEnvOverrides, commonOverrides, metaOverrides, storeOverrides, schedulerOverrides,
    clientOverrides, transferOverrides, getEnvOrDefaultUInt_u32]
  simp only [getEnvOrDefault_eq, getEnvOrDefaultInt_eq, getEnvOrDefaultUInt_eq,
    getEnvOrDefaultDouble_eq, getEnvOrDefaultFlag_eq]
  rfl

/-- Where nothing is set the overrides still propagate the common values and narrow the two fields. -/
theorem applyEnvOverrides_of_unset {env : Environment} (h : env.Unset) (config : FalconKVConfig) :
    applyEnvOverrides env config = narrowed (propagateCommonToModules config) := by
  simp only [Environment.Unset, environmentKeys, List.forall_mem_cons, List.not_mem_nil,
    false_imp_iff, implies_true, and_true] at h
  simp only [applyEnvOverrides, commonOverrides, metaOverrides, storeOverrides, schedulerOverrides,
    clientOverrides, transferOverrides, getEnvOrDefault_eq, getEnvOrDefaultInt_eq,
    getEnvOrDefaultUInt_eq, getEnvOrDefaultDouble_eq, getEnvOrDefaultFlag_eq, envString, envInt,
    envUInt, envDouble, envFlag, h, Option.map_none, Option.getD_none]
  rfl

/-- Of what a document leads to, only `uds_path` and the two narrow fields can change. -/
theorem propagated_eq : propagateCommonToModules (x.cleared.layered .parsed) =
    x.cleared.assemble false false := rfl

theorem loadFromString_eq {text : String} (htext : x.json.parse text = some x.root)
    (hparsed : parseSections x.json x.root {} = .ok parsed) :
    loadFromString x.json x.env text = .ok (narrowed (x.assemble false false)) := by
  rw [loadFromString, parseJsonConfig, htext]
  dsimp only
  rw [hparsed, parseSections_eq hparsed]
  exact congrArg Except.ok applyEnvOverrides_eq

/-- Sections that set nothing unread may be heeded or not. -/
theorem UnreadUndisturbed.assemble_eq (h : x.UnreadUndisturbed) (udsPath : Bool) :
    x.assemble udsPath false = x.assemble udsPath true := by
  simp only [assemble, h.storeNodeId.value_eq, h.storeSchedulerEnabled.value_eq,
    h.storeSchedulerUdsPath.value_eq,
    h.storeSchedulerRpcTimeoutUs.value_eq, h.storeMaxConsecutiveFailures.value_eq,
    h.storeReconnectIntervalSec.value_eq, h.storeMetaAddr.value_eq,
    h.schedulerRpcTimeoutUs.value_eq, h.schedulerMaxConsecutiveFailures.value_eq,
    h.schedulerReconnectIntervalSec.value_eq, h.clientSchedulerEnabled.value_eq,
    h.clientSchedulerUdsPath.value_eq, h.clientSchedulerRpcTimeoutUs.value_eq,
    h.clientMaxConsecutiveFailures.value_eq, h.clientReconnectIntervalSec.value_eq,
    h.clientNodeId.value_eq, h.transferMetaAddr.value_eq]

open Propagated in
theorem unreadUndisturbed_of_eq (h : narrowed (x.assemble false false) = x.assemble true true) :
    x.UnreadUndisturbed where
  storeNodeId := value_eq_iff.mp (congrArg (·.store.nodeId) h)
  storeSchedulerEnabled := value_eq_iff.mp (congrArg (·.store.schedulerEnabled) h)
  storeSchedulerUdsPath := value_eq_iff.mp (congrArg (·.store.schedulerUdsPath) h)
  storeSchedulerRpcTimeoutUs := value_eq_iff.mp (congrArg (·.store.schedulerRpcTimeoutUs) h)
  storeMaxConsecutiveFailures := value_eq_iff.mp (congrArg (·.store.maxConsecutiveFailures) h)
  storeReconnectIntervalSec := value_eq_iff.mp (congrArg (·.store.reconnectIntervalSec) h)
  storeMetaAddr := value_eq_iff.mp (congrArg (·.store.metaAddr) h)
  schedulerRpcTimeoutUs := value_eq_iff.mp (congrArg (·.scheduler.rpcTimeoutUs) h)
  schedulerMaxConsecutiveFailures := value_eq_iff.mp (congrArg (·.scheduler.maxConsecutiveFailures) h)
  schedulerReconnectIntervalSec := value_eq_iff.mp (congrArg (·.scheduler.reconnectIntervalSec) h)
  clientSchedulerEnabled := value_eq_iff.mp (congrArg (·.client.schedulerEnabled) h)
  clientSchedulerUdsPath := value_eq_iff.mp (congrArg (·.client.schedulerUdsPath) h)
  clientSchedulerRpcTimeoutUs := value_eq_iff.mp (congrArg (·.client.schedulerRpcTimeoutUs) h)
  clientMaxConsecutiveFailures := value_eq_iff.mp (congrArg (·.client.maxConsecutiveFailures) h)
  clientReconnectIntervalSec := value_eq_iff.mp (congrArg (·.client.reconnectIntervalSec) h)
  clientNodeId := value_eq_iff.mp (congrArg (·.client.nodeId) h)
  transferMetaAddr := value_eq_iff.mp (congrArg (·.transfer.metaAddr) h)

/-- What the loader makes of its inputs is the configuration by precedence exactly if no setting
is lost on the way. -/
theorem narrowed_eq_iff {reading : Reading} :
    narrowed (x.assemble false false) = x.layered reading ↔ x.Kept reading := by
  constructor
  · intro h
    have huds : x.schedulerUdsPath.value false = x.schedulerUdsPath.value true := by
      cases reading <;> exact congrArg (fun c => c.scheduler.udsPath) h
    refine ⟨Propagated.value_eq_iff.mp huds,?_,?_,?_⟩
    · rintro rfl
      exact unreadUndisturbed_of_eq h
    · apply u32_eq_self_iff.mp
      cases reading <;> exact congrArg (fun c => c.store.evictColdThresholdMs) h
    · apply u32_eq_self_iff.mp
      cases reading <;> exact congrArg (fun c => c.client.cacheCapacity) h
  · intro h
    have huds := h.udsPath.value_eq
    have hcold := u32_of_lt h.evictColdThresholdMs
    have hcache := u32_of_lt h.cacheCapacity
    have hparsed : narrowed (x.assemble false false) = x.assemble true false := by
      simp only [narrowed, assemble, huds, hcold, hcache]
    rw [hparsed]
    cases reading with
    | parsed => rfl
    | named => exact (h.unread rfl).assemble_eq true

end Inputs

/-- The loaded configuration is the one by precedence exactly if no section sets a propagated
field against the common value and the two fields of 64 bits fit 32; with no variable set the
overrides keep what the document leads to exactly if the document alone is so. -/
theorem loadFromString_layered_iff {Value : Type} (x : Inputs Value) (reading : Reading)
    (text : String) (parsed : FalconKVConfig) (htext : x.json.parse text = some x.root)
    (hparsed : parseJsonConfig x.json text {} = .ok (true,parsed)) :
    (loadFromString x.json x.env text = .ok (x.layered reading) ↔ x.Kept reading) ∧
    loadFromFile x.json x.env (some text) = loadFromString x.json x.env text ∧
    (x.env.Unset → (applyEnvOverrides x.env parsed = parsed ↔ x.cleared.Kept .parsed) ∧
      applyEnvOverrides x.env {} = {}) := by
  have hsections : parseSections x.json x.root {} = .ok parsed := by
    rw [parseJsonConfig, htext] at hparsed
    obtain ⟨config,hconfig,heq⟩ := ok_bind hparsed
    cases heq
    exact hconfig
  refine ⟨?_,rfl,?_⟩
  · rw [Inputs.loadFromString_eq htext hsections, Except.ok.injEq]
    exact Inputs.narrowed_eq_iff
  · intro hunset
    refine ⟨?_,?_⟩
    · rw [Inputs.applyEnvOverrides_of_unset hunset, Inputs.parseSections_eq hsections,
        Inputs.propagated_eq]
      exact Inputs.narrowed_eq_iff
    · rw [Inputs.applyEnvOverrides_of_unset hunset]
      rfl

inductive SampleValue
  | null
  | bool (b : Bool)
  | int (z : ℤ)
  | string (s : String)
  | object (members : List (String × SampleValue))

namespace SampleValue

def isMember (name : String) : SampleValue → Except String Bool
  | object members => .ok (members.any fun m => m.1 == name)
  | null => .ok false
  | _ => .error "requires objectValue or nullValue"

def member (name : String) : SampleValue → SampleValue
  | object members => ((members.find? fun m => m.1 == name).map Prod.snd).getD null
  | _ => null

def asInteger (low high : ℤ) : SampleValue → Except String ℤ
  | null => .ok 0
  | bool b => .ok (if b then 1 else 0)
  | int z => if low ≤ z ∧ z < high then .ok z else .error "out of range"
  | _ => .error "not convertible"

def asString : SampleValue → Except String String
  | null => .ok ""
  | bool b => .ok (if b then "true" else "false")
  | int z => .ok (toString z)
  | string s => .ok s
  | object _ => .error "not convertible to string"

def asBool : SampleValue → Except String Bool
  | null => .ok false
  | bool b => .ok b
  | int z => .ok (z ≠ 0)
  | _ => .error "not convertible to bool"

end SampleValue

def sampleJson (document : String) (value : SampleValue) : JsonLibrary SampleValue where
  parse text := if text = document then some value else none
  isMember v name := v.isMember name
  member v name := v.member name
  asString v := v.asString
  asInt v := v.asInteger (-2^31) (2^31)
  asUInt v := (v.asInteger 0 (2^32)).map Int.toNat
  asUInt64 v := (v.asInteger 0 (2^64)).map Int.toNat
  asDouble v := (v.asInteger (-2^63) (2^64)).map Float.ofInt
  asBool v := v.asBool

def plainDocument : String := "\x7b\"store\": \x7b\"page_size\": 8192\x7d\x7d"

def plainRoot : SampleValue := .object [("store",.object [("page_size",.int 8192)])]

def plainInputs : Inputs SampleValue :=
  ⟨sampleJson plainDocument plainRoot,
    ⟨fun key => if key = "FALCONKV_NODE_ID" then some "7" else none,fun _ => 0⟩,plainRoot⟩

/-- The common value goes to the store, and the section sets its page size. -/
theorem plain_layered : loadFromString plainInputs.json plainInputs.env plainDocument =
      .ok (plainInputs.layered .parsed) ∧
    (plainInputs.layered .parsed).store.nodeId = 7 ∧
    (plainInputs.layered .parsed).store.pageSize = 8192 := by
  refine ⟨?_,rfl,rfl⟩
  apply (loadFromString_layered_iff plainInputs .parsed plainDocument _ rfl rfl).1.mpr
  refine ⟨?_,by simp,by decide,by decide⟩
  intro _ v hv
  have hnone : plainInputs.schedulerUdsPath.inModule = none := rfl
  rw [hnone] at hv
  cases hv

def lossyDocument : String := "\x7b\"scheduler\": \x7b\"uds_path\": \"/run/falconkv.sock\"\x7d, " ++
  "\"client\": \x7b\"cache_capacity\": 4294967296\x7d\x7d"

def lossyRoot : SampleValue := .object
  [("scheduler",.object [("uds_path",.string "/run/falconkv.sock")]),
    ("client",.object [("cache_capacity",.int 4294967296)])]

def lossyInputs : Inputs SampleValue :=
  ⟨sampleJson lossyDocument lossyRoot,⟨fun _ => none,fun _ => 0⟩,lossyRoot⟩

/-- Both settings of this document are lost, although no variable is set. -/
theorem lossy_not_layered : ∃ parsed config,
    lossyInputs.json.parse lossyDocument = some lossyInputs.root ∧
    parseJsonConfig lossyInputs.json lossyDocument {} = .ok (true,parsed) ∧
    parsed.scheduler.udsPath = "/run/falconkv.sock" ∧ parsed.client.cacheCapacity = 4294967296 ∧
    loadFromString lossyInputs.json lossyInputs.env lossyDocument = .ok config ∧
    config.scheduler.udsPath = "/tmp/falconkv_scheduler.sock" ∧ config.client.cacheCapacity = 0 ∧
    (∀ reading, config ≠ lossyInputs.layered reading) ∧
    applyEnvOverrides lossyInputs.env parsed ≠ parsed := by
  refine ⟨_,_,rfl,rfl,rfl,rfl,rfl,rfl,rfl,?_,?_⟩
  · intro reading heq
    have hcapacity := congrArg (fun c => c.client.cacheCapacity) heq
    cases reading <;> exact absurd hcapacity (by decide)
  · intro heq
    have hcapacity := congrArg (fun c => c.client.cacheCapacity) heq
    exact absurd hcapacity (by decide)

end ConfigLoader

end FalconKV
