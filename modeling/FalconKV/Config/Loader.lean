import FalconKV.Common.Status

/-! # The configuration loader

A configuration starts with the defaults. A JSON document is read over it, its `common` section
first, whose values go to all modules before the sections of the modules are read; then the
environment is read over that, and the common values go to the modules once more. An `int` is an
integer here and a `double` is a `Float`: both are only copied.
-/
namespace FalconKV

namespace ConfigLoader

structure CommonConfig where
  metaAddr : String := "localhost:8900"
  nodeId : ℕ := 0
  schedulerEnabled : Bool := true
  schedulerUdsPath : String := "/tmp/falconkv_scheduler.sock"
  schedulerRpcTimeoutUs : ℤ := 2000
  maxConsecutiveFailures : ℤ := 3
  reconnectIntervalSec : ℤ := 2
  logDir : String := ""

structure MetaConfig where
  shardCount : ℤ := 64
  pageSize : ℕ := 4096
  heartbeatTimeoutSec : ℤ := 30

structure StoreConfig where
  ssdPath : String := "/data/falconkv"
  storeId : ℕ := 0
  nodeId : ℕ := 0
  capacityBytes : ℕ := 500 * 1024 * 1024 * 1024
  pageSize : ℕ := 4096
  ioThreads : ℕ := 4
  alignment : ℕ := 512
  listenPort : ℕ := 8901
  heartbeatSec : ℕ := 5
  schedulerEnabled : Bool := true
  schedulerUdsPath : String := "/tmp/falconkv_scheduler.sock"
  schedulerRpcTimeoutUs : ℤ := 2000
  maxConsecutiveFailures : ℤ := 3
  reconnectIntervalSec : ℤ := 2
  storeRpcHost : String := "127.0.0.1"
  metaAddr : String := "localhost:8900"
  evictGracePeriodMs : ℕ := 5000
  evictCheckIntervalSec : ℕ := 60
  evictHighWatermark : Float := 0.85
  evictLowWatermark : Float := 0.70
  evictColdThresholdMs : ℕ := 300000
  ioUringEnabled : Bool := true
  directIoEnabled : Bool := true
  ioUringQueueDepth : ℕ := 128
  slotSizeBytes : ℕ := 0
  hixlEngineAddr : String := ""
  hixlLocalCommRes : String := ""
  hixlGlobalResourceConfig : String := ""
  hixlProtocolDesc : String := ""
  hixlBufferPool : String := ""
  hixlRdmaTrafficClass : ℤ := -1
  hixlRdmaServiceLevel : ℤ := -1

structure SchedulerConfig where
  udsPath : String := "/tmp/falconkv_scheduler.sock"
  schedulePolicy : String := "passthrough"
  ssdBwLimitMbps : Float := 7000.0
  netBwLimitMbps : Float := 12500.0
  statsReportIntervalSec : ℤ := 5
  statsWindowMs : ℤ := 1000
  rpcTimeoutUs : ℤ := 2000
  maxConsecutiveFailures : ℤ := 3
  reconnectIntervalSec : ℤ := 2

structure ClientConfig where
  cacheCapacity : ℕ := 100000
  asyncBatchSize : ℤ := 16
  fireAndForget : Bool := true
  schedulerEnabled : Bool := true
  schedulerUdsPath : String := "/tmp/falconkv_scheduler.sock"
  schedulerRpcTimeoutUs : ℤ := 2000
  maxConsecutiveFailures : ℤ := 3
  reconnectIntervalSec : ℤ := 2
  nodeId : ℕ := 0

structure TransferConfig where
  protocol : String := "brpc"
  dataProtocol : String := "brpc"
  hixlFallbackToBrpc : Bool := true
  hixlLocalEngine : String := ""
  hixlLocalCommRes : String := ""
  hixlGlobalResourceConfig : String := ""
  hixlProtocolDesc : String := ""
  hixlBufferPool : String := ""
  hixlRdmaTrafficClass : ℤ := -1
  hixlRdmaServiceLevel : ℤ := -1
  hixlTimeoutMs : ℤ := 5000
  metaAddr : String := "localhost:8900"
  metaPoolSize : ℤ := 4
  storePoolSize : ℤ := 4
  rpcTimeoutMs : ℤ := 5000
  connectTimeoutMs : ℤ := 3000
  maxRetry : ℤ := 3

/-- `metaConfig` is the field `meta`. -/
structure FalconKVConfig where
  common : CommonConfig := {}
  metaConfig : MetaConfig := {}
  store : StoreConfig := {}
  scheduler : SchedulerConfig := {}
  client : ClientConfig := {}
  transfer : TransferConfig := {}

structure Environment where
  getenv : String → Option String
  atof : String → Float

def isspace (c : Char) : Bool := c.toNat == 32 || (9 ≤ c.toNat && c.toNat ≤ 13)

def decimal (text : String) : Bool × ℕ :=
  let rest := text.toList.dropWhile isspace
  let (negative,digits) := match rest with
    | [] => (false,[])
    | c :: digits =>
      if c.toNat = 45 then (true,digits)
      else if c.toNat = 43 then (false,digits)
      else (false,rest)
  (negative,(digits.takeWhile Char.isDigit).foldl (fun n c => 10 * n + (c.toNat - 48)) 0)

/-- `strtoul(text, nullptr, 10)`: a negated number wraps, and one that is too large is cut off. -/
def strtoul (text : String) : ℕ :=
  let (negative,n) := decimal text
  if 2^64 ≤ n then 2^64 - 1 else if negative then subU64 0 n else n

def atoi (text : String) : ℤ :=
  let (negative,n) := decimal text
  let z : ℤ := if negative then max (-n) (-2^63) else min n (2^63 - 1)
  int32 (z % 2^64).toNat

def getEnvOrDefault (env : Environment) (key defaultVal : String) : String :=
  match env.getenv key with
  | some val => val
  | none => defaultVal

def getEnvOrDefaultInt (env : Environment) (key : String) (defaultVal : ℤ) : ℤ :=
  match env.getenv key with
  | some val => atoi val
  | none => defaultVal

def getEnvOrDefaultUInt (env : Environment) (key : String) (defaultVal : ℕ) : ℕ :=
  match env.getenv key with
  | some val => u32 (strtoul val)
  | none => defaultVal

def getEnvOrDefaultDouble (env : Environment) (key : String) (defaultVal : Float) : Float :=
  match env.getenv key with
  | some val => env.atof val
  | none => defaultVal

def getEnvOrDefaultFlag (env : Environment) (key : String) (defaultVal : Bool) : Bool :=
  getEnvOrDefault env key (if defaultVal then "1" else "0") == "1"

def propagateCommonToModules (config : FalconKVConfig) : FalconKVConfig :=
  { config with
    store := { config.store with
      metaAddr := config.common.metaAddr
      nodeId := config.common.nodeId
      schedulerEnabled := config.common.schedulerEnabled
      schedulerUdsPath := config.common.schedulerUdsPath
      schedulerRpcTimeoutUs := config.common.schedulerRpcTimeoutUs
      maxConsecutiveFailures := config.common.maxConsecutiveFailures
      reconnectIntervalSec := config.common.reconnectIntervalSec }
    transfer := { config.transfer with metaAddr := config.common.metaAddr }
    client := { config.client with
      nodeId := config.common.nodeId
      schedulerEnabled := config.common.schedulerEnabled
      schedulerUdsPath := config.common.schedulerUdsPath
      schedulerRpcTimeoutUs := config.common.schedulerRpcTimeoutUs
      maxConsecutiveFailures := config.common.maxConsecutiveFailures
      reconnectIntervalSec := config.common.reconnectIntervalSec }
    scheduler := { config.scheduler with
      udsPath := config.common.schedulerUdsPath
      rpcTimeoutUs := config.common.schedulerRpcTimeoutUs
      maxConsecutiveFailures := config.common.maxConsecutiveFailures
      reconnectIntervalSec := config.common.reconnectIntervalSec } }

def commonOverrides (env : Environment) (common : CommonConfig) : CommonConfig where
  metaAddr := getEnvOrDefault env "FALCONKV_META_ADDR" common.metaAddr
  nodeId := getEnvOrDefaultUInt env "FALCONKV_NODE_ID" common.nodeId
  schedulerEnabled := getEnvOrDefaultFlag env "FALCONKV_SCHEDULER_ENABLED" common.schedulerEnabled
  schedulerUdsPath := getEnvOrDefault env "FALCONKV_SCHEDULER_UDS_PATH" common.schedulerUdsPath
  schedulerRpcTimeoutUs :=
    getEnvOrDefaultInt env "FALCONKV_SCHEDULER_RPC_TIMEOUT_US" common.schedulerRpcTimeoutUs
  maxConsecutiveFailures :=
    getEnvOrDefaultInt env "FALCONKV_MAX_CONSECUTIVE_FAILURES" common.maxConsecutiveFailures
  reconnectIntervalSec :=
    getEnvOrDefaultInt env "FALCONKV_RECONNECT_INTERVAL_SEC" common.reconnectIntervalSec
  logDir := getEnvOrDefault env "FALCONKV_LOG_DIR" common.logDir

def metaOverrides (env : Environment) (cfg : MetaConfig) : MetaConfig where
  shardCount := getEnvOrDefaultInt env "FALCONKV_SHARD_COUNT" cfg.shardCount
  pageSize := getEnvOrDefaultUInt env "FALCONKV_PAGE_SIZE" cfg.pageSize
  heartbeatTimeoutSec :=
    getEnvOrDefaultInt env "FALCONKV_HEARTBEAT_TIMEOUT_SEC" cfg.heartbeatTimeoutSec

def storeOverrides (env : Environment) (store : StoreConfig) : StoreConfig :=
  { store with
    ssdPath := getEnvOrDefault env "FALCONKV_SSD_PATH" store.ssdPath
    storeId := getEnvOrDefaultUInt env "FALCONKV_STORE_ID" store.storeId
    nodeId := getEnvOrDefaultUInt env "FALCONKV_STORE_NODE_ID" store.nodeId
    pageSize := getEnvOrDefaultUInt env "FALCONKV_STORE_PAGE_SIZE" store.pageSize
    ioThreads := getEnvOrDefaultUInt env "FALCONKV_IO_THREADS" store.ioThreads
    alignment := getEnvOrDefaultUInt env "FALCONKV_ALIGNMENT" store.alignment
    listenPort := getEnvOrDefaultUInt env "FALCONKV_STORE_LISTEN_PORT" store.listenPort
    heartbeatSec := getEnvOrDefaultUInt env "FALCONKV_STORE_HEARTBEAT_SEC" store.heartbeatSec
    evictGracePeriodMs :=
      getEnvOrDefaultUInt env "FALCONKV_EVICT_GRACE_PERIOD_MS" store.evictGracePeriodMs
    evictCheckIntervalSec :=
      getEnvOrDefaultUInt env "FALCONKV_EVICT_CHECK_INTERVAL_SEC" store.evictCheckIntervalSec
    evictHighWatermark :=
      getEnvOrDefaultDouble env "FALCONKV_EVICT_HIGH_WATERMARK" store.evictHighWatermark
    evictLowWatermark :=
      getEnvOrDefaultDouble env "FALCONKV_EVICT_LOW_WATERMARK" store.evictLowWatermark
    evictColdThresholdMs :=
      getEnvOrDefaultUInt env "FALCONKV_EVICT_COLD_THRESHOLD_MS" (u32 store.evictColdThresholdMs)
    ioUringEnabled := getEnvOrDefaultFlag env "FALCONKV_IO_URING_ENABLED" store.ioUringEnabled
    directIoEnabled := getEnvOrDefaultFlag env "FALCONKV_DIRECT_IO_ENABLED" store.directIoEnabled
    ioUringQueueDepth :=
      getEnvOrDefaultUInt env "FALCONKV_IO_URING_QUEUE_DEPTH" store.ioUringQueueDepth
    slotSizeBytes := getEnvOrDefaultUInt env "FALCONKV_SLOT_SIZE_BYTES" store.slotSizeBytes
    hixlEngineAddr := getEnvOrDefault env "FALCONKV_STORE_HIXL_ENGINE_ADDR" store.hixlEngineAddr
    hixlLocalCommRes :=
      getEnvOrDefault env "FALCONKV_STORE_HIXL_LOCAL_COMM_RES" store.hixlLocalCommRes
    hixlGlobalResourceConfig := getEnvOrDefault env "FALCONKV_STORE_HIXL_GLOBAL_RESOURCE_CONFIG"
      store.hixlGlobalResourceConfig
    hixlProtocolDesc :=
      getEnvOrDefault env "FALCONKV_STORE_HIXL_PROTOCOL_DESC" store.hixlProtocolDesc
    hixlBufferPool := getEnvOrDefault env "FALCONKV_STORE_HIXL_BUFFER_POOL" store.hixlBufferPool
    hixlRdmaTrafficClass :=
      getEnvOrDefaultInt env "FALCONKV_STORE_HIXL_RDMA_TRAFFIC_CLASS" store.hixlRdmaTrafficClass
    hixlRdmaServiceLevel :=
      getEnvOrDefaultInt env "FALCONKV_STORE_HIXL_RDMA_SERVICE_LEVEL" store.hixlRdmaServiceLevel }

def schedulerOverrides (env : Environment) (scheduler : SchedulerConfig) : SchedulerConfig :=
  { scheduler with
    udsPath := getEnvOrDefault env "FALCONKV_SCHED_UDS_PATH" scheduler.udsPath
    schedulePolicy := getEnvOrDefault env "FALCONKV_SCHEDULE_POLICY" scheduler.schedulePolicy
    ssdBwLimitMbps :=
      getEnvOrDefaultDouble env "FALCONKV_SSD_BW_LIMIT_MBPS" scheduler.ssdBwLimitMbps
    netBwLimitMbps :=
      getEnvOrDefaultDouble env "FALCONKV_NET_BW_LIMIT_MBPS" scheduler.netBwLimitMbps
    statsReportIntervalSec :=
      getEnvOrDefaultInt env "FALCONKV_STATS_REPORT_INTERVAL_SEC" scheduler.statsReportIntervalSec }

def clientOverrides (env : Environment) (client : ClientConfig) : ClientConfig :=
  { client with
    cacheCapacity :=
      getEnvOrDefaultUInt env "FALCONKV_CLIENT_CACHE_CAPACITY" (u32 client.cacheCapacity)
    asyncBatchSize := getEnvOrDefaultInt env "FALCONKV_ASYNC_BATCH_SIZE" client.asyncBatchSize
    schedulerUdsPath :=
      getEnvOrDefault env "FALCONKV_CLIENT_SCHEDULER_UDS_PATH" client.schedulerUdsPath
    nodeId := getEnvOrDefaultUInt env "FALCONKV_CLIENT_NODE_ID" client.nodeId }

def transferOverrides (env : Environment) (transfer : TransferConfig) : TransferConfig where
  protocol := getEnvOrDefault env "FALCONKV_TRANSFER_PROTOCOL" transfer.protocol
  dataProtocol := getEnvOrDefault env "FALCONKV_TRANSFER_DATA_PROTOCOL" transfer.dataProtocol
  hixlFallbackToBrpc :=
    getEnvOrDefaultFlag env "FALCONKV_HIXL_FALLBACK_TO_BRPC" transfer.hixlFallbackToBrpc
  hixlLocalEngine := getEnvOrDefault env "FALCONKV_HIXL_LOCAL_ENGINE" transfer.hixlLocalEngine
  hixlLocalCommRes := getEnvOrDefault env "FALCONKV_HIXL_LOCAL_COMM_RES" transfer.hixlLocalCommRes
  hixlGlobalResourceConfig :=
    getEnvOrDefault env "FALCONKV_HIXL_GLOBAL_RESOURCE_CONFIG" transfer.hixlGlobalResourceConfig
  hixlProtocolDesc := getEnvOrDefault env "FALCONKV_HIXL_PROTOCOL_DESC" transfer.hixlProtocolDesc
  hixlBufferPool := getEnvOrDefault env "FALCONKV_HIXL_BUFFER_POOL" transfer.hixlBufferPool
  hixlRdmaTrafficClass :=
    getEnvOrDefaultInt env "FALCONKV_HIXL_RDMA_TRAFFIC_CLASS" transfer.hixlRdmaTrafficClass
  hixlRdmaServiceLevel :=
    getEnvOrDefaultInt env "FALCONKV_HIXL_RDMA_SERVICE_LEVEL" transfer.hixlRdmaServiceLevel
  hixlTimeoutMs := getEnvOrDefaultInt env "FALCONKV_HIXL_TIMEOUT_MS" transfer.hixlTimeoutMs
  metaAddr := getEnvOrDefault env "FALCONKV_TRANSFER_META_ADDR" transfer.metaAddr
  metaPoolSize := getEnvOrDefaultInt env "FALCONKV_META_POOL_SIZE" transfer.metaPoolSize
  storePoolSize := getEnvOrDefaultInt env "FALCONKV_STORE_POOL_SIZE" transfer.storePoolSize
  rpcTimeoutMs := getEnvOrDefaultInt env "FALCONKV_RPC_TIMEOUT_MS" transfer.rpcTimeoutMs
  connectTimeoutMs := getEnvOrDefaultInt env "FALCONKV_CONNECT_TIMEOUT_MS" transfer.connectTimeoutMs
  maxRetry := getEnvOrDefaultInt env "FALCONKV_MAX_RETRY" transfer.maxRetry

/-- The assignments of `PropagateCommonToModules` stand in `ApplyEnvOverrides` once more. -/
def applyEnvOverrides (env : Environment) (config : FalconKVConfig) : FalconKVConfig :=
  let config := { config with common := commonOverrides env config.common }
  let config := propagateCommonToModules config
  { config with
    metaConfig := metaOverrides env config.metaConfig
    store := storeOverrides env config.store
    scheduler := schedulerOverrides env config.scheduler
    client := clientOverrides env config.client
    transfer := transferOverrides env config.transfer }

/-- A reader of documents, and their values. `isMember` and the conversions throw on a value of
the wrong kind or out of range. -/
structure JsonLibrary (Value : Type) where
  parse : String → Option Value
  isMember : Value → String → Except String Bool
  member : Value → String → Value
  asString : Value → Except String String
  asInt : Value → Except String ℤ
  asUInt : Value → Except String ℕ
  asUInt64 : Value → Except String ℕ
  asDouble : Value → Except String Float
  asBool : Value → Except String Bool

section
variable {Value α : Type} (json : JsonLibrary Value)

/-- `if (s.isMember(name)) field = s[name].asT();` -/
def JsonLibrary.read (s : Value) (name : String) (asT : Value → Except String α) (field : α) :
    Except String α := do
  if ← json.isMember s name then asT (json.member s name) else pure field

def JsonLibrary.asGigabytes (v : Value) : Except String ℕ :=
  (json.asUInt64 v).map fun n => n * 1024 * 1024 * 1024 % 2^64

def parseCommonConfig (root : Value) (cfg : CommonConfig) : Except String CommonConfig := do
  if ← json.isMember root "common" then
    let c := json.member root "common"
    let metaAddr ← json.read c "meta_addr" json.asString cfg.metaAddr
    let nodeId ← json.read c "node_id" json.asUInt cfg.nodeId
    let schedulerEnabled ← json.read c "scheduler_enabled" json.asBool cfg.schedulerEnabled
    let schedulerUdsPath ← json.read c "scheduler_uds_path" json.asString cfg.schedulerUdsPath
    let schedulerRpcTimeoutUs ←
      json.read c "scheduler_rpc_timeout_us" json.asInt cfg.schedulerRpcTimeoutUs
    let maxConsecutiveFailures ←
      json.read c "max_consecutive_failures" json.asInt cfg.maxConsecutiveFailures
    let reconnectIntervalSec ←
      json.read c "reconnect_interval_sec" json.asInt cfg.reconnectIntervalSec
    let logDir ← json.read c "log_dir" json.asString cfg.logDir
    pure { cfg with
      metaAddr, nodeId, schedulerEnabled, schedulerUdsPath, schedulerRpcTimeoutUs,
      maxConsecutiveFailures, reconnectIntervalSec, logDir }
  else pure cfg

def parseMetaConfig (root : Value) (cfg : MetaConfig) : Except String MetaConfig := do
  if ← json.isMember root "meta" then
    let m := json.member root "meta"
    let shardCount ← json.read m "shard_count" json.asInt cfg.shardCount
    let pageSize ← json.read m "page_size" json.asUInt cfg.pageSize
    let heartbeatTimeoutSec ← json.read m "heartbeat_timeout_sec" json.asInt cfg.heartbeatTimeoutSec
    pure { cfg with shardCount, pageSize, heartbeatTimeoutSec }
  else pure cfg

def parseStoreConfig (root : Value) (cfg : StoreConfig) : Except String StoreConfig := do
  if ← json.isMember root "store" then
    let s := json.member root "store"
    let ssdPath ← json.read s "ssd_path" json.asString cfg.ssdPath
    let storeId ← json.read s "store_id" json.asUInt cfg.storeId
    let capacityBytes ← json.read s "capacity_gb" json.asGigabytes cfg.capacityBytes
    let pageSize ← json.read s "page_size" json.asUInt cfg.pageSize
    let ioThreads ← json.read s "io_threads" json.asUInt cfg.ioThreads
    let alignment ← json.read s "alignment" json.asUInt cfg.alignment
    let listenPort ← json.read s "listen_port" json.asUInt cfg.listenPort
    let heartbeatSec ← json.read s "heartbeat_sec" json.asUInt cfg.heartbeatSec
    let storeRpcHost ← json.read s "store_rpc_host" json.asString cfg.storeRpcHost
    let evictGracePeriodMs ← json.read s "evict_grace_period_ms" json.asUInt cfg.evictGracePeriodMs
    let evictCheckIntervalSec ←
      json.read s "evict_check_interval_sec" json.asUInt cfg.evictCheckIntervalSec
    let evictHighWatermark ← json.read s "evict_high_watermark" json.asDouble cfg.evictHighWatermark
    let evictLowWatermark ← json.read s "evict_low_watermark" json.asDouble cfg.evictLowWatermark
    let evictColdThresholdMs ←
      json.read s "evict_cold_threshold_ms" json.asUInt64 cfg.evictColdThresholdMs
    let ioUringEnabled ← json.read s "io_uring_enabled" json.asBool cfg.ioUringEnabled
    let directIoEnabled ← json.read s "direct_io_enabled" json.asBool cfg.directIoEnabled
    let ioUringQueueDepth ← json.read s "io_uring_queue_depth" json.asUInt cfg.ioUringQueueDepth
    let slotSizeBytes ← json.read s "slot_size_bytes" json.asUInt cfg.slotSizeBytes
    let hixlEngineAddr ← json.read s "hixl_engine_addr" json.asString cfg.hixlEngineAddr
    let hixlLocalCommRes ← json.read s "hixl_local_comm_res" json.asString cfg.hixlLocalCommRes
    let hixlGlobalResourceConfig ←
      json.read s "hixl_global_resource_config" json.asString cfg.hixlGlobalResourceConfig
    let hixlProtocolDesc ← json.read s "hixl_protocol_desc" json.asString cfg.hixlProtocolDesc
    let hixlBufferPool ← json.read s "hixl_buffer_pool" json.asString cfg.hixlBufferPool
    let hixlRdmaTrafficClass ←
      json.read s "hixl_rdma_traffic_class" json.asInt cfg.hixlRdmaTrafficClass
    let hixlRdmaServiceLevel ←
      json.read s "hixl_rdma_service_level" json.asInt cfg.hixlRdmaServiceLevel
    pure { cfg with
      ssdPath, storeId, capacityBytes, pageSize, ioThreads, alignment, listenPort, heartbeatSec,
      storeRpcHost, evictGracePeriodMs, evictCheckIntervalSec, evictHighWatermark,
      evictLowWatermark, evictColdThresholdMs, ioUringEnabled, directIoEnabled, ioUringQueueDepth,
      slotSizeBytes, hixlEngineAddr, hixlLocalCommRes, hixlGlobalResourceConfig, hixlProtocolDesc,
      hixlBufferPool, hixlRdmaTrafficClass, hixlRdmaServiceLevel }
  else pure cfg

def parseSchedulerConfig (root : Value) (cfg : SchedulerConfig) : Except String SchedulerConfig := do
  if ← json.isMember root "scheduler" then
    let sc := json.member root "scheduler"
    let udsPath ← json.read sc "uds_path" json.asString cfg.udsPath
    let schedulePolicy ← json.read sc "schedule_policy" json.asString cfg.schedulePolicy
    let ssdBwLimitMbps ← json.read sc "ssd_bw_limit_mbps" json.asDouble cfg.ssdBwLimitMbps
    let netBwLimitMbps ← json.read sc "net_bw_limit_mbps" json.asDouble cfg.netBwLimitMbps
    let statsReportIntervalSec ←
      json.read sc "stats_report_interval_sec" json.asInt cfg.statsReportIntervalSec
    let statsWindowMs ← json.read sc "stats_window_ms" json.asInt cfg.statsWindowMs
    pure { cfg with
      udsPath, schedulePolicy, ssdBwLimitMbps, netBwLimitMbps, statsReportIntervalSec,
      statsWindowMs }
  else pure cfg

def parseClientConfig (root : Value) (cfg : ClientConfig) : Except String ClientConfig := do
  if ← json.isMember root "client" then
    let c := json.member root "client"
    let cacheCapacity ← json.read c "cache_capacity" json.asUInt64 cfg.cacheCapacity
    let asyncBatchSize ← json.read c "async_batch_size" json.asInt cfg.asyncBatchSize
    let fireAndForget ← json.read c "fire_and_forget" json.asBool cfg.fireAndForget
    pure { cfg with cacheCapacity, asyncBatchSize, fireAndForget }
  else pure cfg

def parseTransferConfig (root : Value) (cfg : TransferConfig) : Except String TransferConfig := do
  if ← json.isMember root "transfer" then
    let t := json.member root "transfer"
    let protocol ← json.read t "protocol" json.asString cfg.protocol
    let dataProtocol ← json.read t "data_protocol" json.asString cfg.dataProtocol
    let hixlFallbackToBrpc ← json.read t "hixl_fallback_to_brpc" json.asBool cfg.hixlFallbackToBrpc
    let hixlLocalEngine ← json.read t "hixl_local_engine" json.asString cfg.hixlLocalEngine
    let hixlLocalCommRes ← json.read t "hixl_local_comm_res" json.asString cfg.hixlLocalCommRes
    let hixlGlobalResourceConfig ←
      json.read t "hixl_global_resource_config" json.asString cfg.hixlGlobalResourceConfig
    let hixlProtocolDesc ← json.read t "hixl_protocol_desc" json.asString cfg.hixlProtocolDesc
    let hixlBufferPool ← json.read t "hixl_buffer_pool" json.asString cfg.hixlBufferPool
    let hixlRdmaTrafficClass ←
      json.read t "hixl_rdma_traffic_class" json.asInt cfg.hixlRdmaTrafficClass
    let hixlRdmaServiceLevel ←
      json.read t "hixl_rdma_service_level" json.asInt cfg.hixlRdmaServiceLevel
    let hixlTimeoutMs ← json.read t "hixl_timeout_ms" json.asInt cfg.hixlTimeoutMs
    let metaPoolSize ← json.read t "meta_pool_size" json.asInt cfg.metaPoolSize
    let storePoolSize ← json.read t "store_pool_size" json.asInt cfg.storePoolSize
    let rpcTimeoutMs ← json.read t "rpc_timeout_ms" json.asInt cfg.rpcTimeoutMs
    let connectTimeoutMs ← json.read t "connect_timeout_ms" json.asInt cfg.connectTimeoutMs
    let maxRetry ← json.read t "max_retry" json.asInt cfg.maxRetry
    pure { cfg with
      protocol, dataProtocol, hixlFallbackToBrpc, hixlLocalEngine, hixlLocalCommRes,
      hixlGlobalResourceConfig, hixlProtocolDesc, hixlBufferPool, hixlRdmaTrafficClass,
      hixlRdmaServiceLevel, hixlTimeoutMs, metaPoolSize, storePoolSize, rpcTimeoutMs,
      connectTimeoutMs, maxRetry }
  else pure cfg

def parseSections (root : Value) (config : FalconKVConfig) : Except String FalconKVConfig := do
  let common ← parseCommonConfig json root config.common
  let config := propagateCommonToModules { config with common := common }
  let metaConfig ← parseMetaConfig json root config.metaConfig
  let store ← parseStoreConfig json root config.store
  let scheduler ← parseSchedulerConfig json root config.scheduler
  let client ← parseClientConfig json root config.client
  let transfer ← parseTransferConfig json root config.transfer
  pure { config with metaConfig, store, scheduler, client, transfer }

/-- Whether the text could be read, and the configuration after the call. -/
def parseJsonConfig (jsonStr : String) (config : FalconKVConfig) :
    Except String (Bool × FalconKVConfig) :=
  match json.parse jsonStr with
  | none => pure (false,config)
  | some root => do
    let config ← parseSections json root config
    pure (true,config)

/-- `file` is what the file holds if it can be opened. -/
def loadFromFile (env : Environment) (file : Option String) : Except String FalconKVConfig :=
  match file with
  | none => pure (applyEnvOverrides env {})
  | some contents => do
    let parsed ← parseJsonConfig json contents {}
    pure (applyEnvOverrides env parsed.2)

def loadFromString (env : Environment) (jsonStr : String) : Except String FalconKVConfig := do
  let parsed ← parseJsonConfig json jsonStr {}
  pure (applyEnvOverrides env parsed.2)

end

end ConfigLoader

end FalconKV
