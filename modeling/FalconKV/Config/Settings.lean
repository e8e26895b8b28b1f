import FalconKV.Common.Layers
import FalconKV.Config.Loader

/-! # What the document and the environment set

Every line of a parser and every line of the overrides reads one setting, which may be absent.
A parser that gets through has read exactly the settings of its section, and the overrides take
what the environment sets; neither depends on the order of the lines.
-/
namespace FalconKV

namespace ConfigLoader

section
variable {Value α : Type} (json : JsonLibrary Value)

def valueIn (s : Value) (name : String) (asT : Value → Except String α) : Option α :=
  match json.isMember s name with
  | .ok true => (asT (json.member s name)).toOption
  | _ => none

def setting (root : Value) (module name : String) (asT : Value → Except String α) : Option α :=
  match json.isMember root module with
  | .ok true => valueIn json (json.member root module) name asT
  | _ => none

variable {json} {root s : Value} {module name : String} {asT : Value → Except String α} {field v : α}

theorem read_eq (h : json.read s name asT field = .ok v) :
    v = (valueIn json s name asT).getD field := by
  rw [JsonLibrary.read] at h
  rw [valueIn]
  cases hthere : json.isMember s name with
  | error e =>
    rw [hthere] at h
    cases h
  | ok there =>
    rw [hthere] at h
    cases there with
    | false =>
      cases h
      rfl
    | true =>
      have hvalue : asT (json.member s name) = .ok v := h
      rw [hvalue]
      rfl

theorem ok_bind {β : Type} {y : Except String α} {f : α → Except String β} {b : β}
    (h : (y >>= f) = .ok b) : ∃ a, y = .ok a ∧ f a = .ok b := by
  cases y with
  | error e => cases h
  | ok a => exact ⟨a,rfl,h⟩

/-- If a parser gets through, then so does each of its reads. -/
theorem read_bind {β : Type} {f : α → Except String β} {b : β}
    (h : (json.read s name asT field >>= f) = .ok b) :
    f ((valueIn json s name asT).getD field) = .ok b := by
  obtain ⟨v,hread,h⟩ := ok_bind h
  rw [← read_eq hread]
  exact h

/-- A section that is not there sets nothing. -/
theorem parseSection_cases {cfg cfg' : α} {f : Except String α}
    (h : (do if ← json.isMember root module then f else pure cfg) = .ok cfg') :
    (cfg' = cfg ∧ ∀ {β : Type} name (asT : Value → Except String β),
      setting json root module name asT = none) ∨
    (f = .ok cfg' ∧ ∀ {β : Type} name (asT : Value → Except String β),
      setting json root module name asT = valueIn json (json.member root module) name asT) := by
  cases hthere : json.isMember root module with
  | error e =>
    rw [hthere] at h
    cases h
  | ok there =>
    rw [hthere] at h
    cases there with
    | false =>
      left
      cases h
      refine ⟨rfl,?_⟩
      intro β name asT
      rw [setting, hthere]
    | true =>
      right
      refine ⟨h,?_⟩
      intro β name asT
      rw [setting, hthere]

theorem parseCommonConfig_eq {cfg cfg' : CommonConfig}
    (h : parseCommonConfig json root cfg = .ok cfg') : cfg' = { cfg with
      metaAddr := (setting json root "common" "meta_addr" json.asString).getD cfg.metaAddr
      nodeId := (setting json root "common" "node_id" json.asUInt).getD cfg.nodeId
      schedulerEnabled :=
        (setting json root "common" "scheduler_enabled" json.asBool).getD cfg.schedulerEnabled
      schedulerUdsPath :=
        (setting json root "common" "scheduler_uds_path" json.asString).getD cfg.schedulerUdsPath
      schedulerRpcTimeoutUs := (setting json root "common" "scheduler_rpc_timeout_us"
        json.asInt).getD cfg.schedulerRpcTimeoutUs
      maxConsecutiveFailures := (setting json root "common" "max_consecutive_failures"
        json.asInt).getD cfg.maxConsecutiveFailures
      reconnectIntervalSec := (setting json root "common" "reconnect_interval_sec"
        json.asInt).getD cfg.reconnectIntervalSec
      logDir := (setting json root "common" "log_dir" json.asString).getD cfg.logDir } := by
  rcases parseSection_cases h with ⟨rfl,hnone⟩ | ⟨h,hvalue⟩
  · simp only [hnone, Option.getD_none]
  · simp only [hvalue]
    iterate 8 replace h := read_bind h
    cases h
    rfl

theorem parseMetaConfig_eq {cfg cfg' : MetaConfig} (h : parseMetaConfig json root cfg = .ok cfg') :
    cfg' = { cfg with
      shardCount := (setting json root "meta" "shard_count" json.asInt).getD cfg.shardCount
      pageSize := (setting json root "meta" "page_size" json.asUInt).getD cfg.pageSize
      heartbeatTimeoutSec :=
        (setting json root "meta" "heartbeat_timeout_sec" json.asInt).getD cfg.heartbeatTimeoutSec } := by
  rcases parseSection_cases h with ⟨rfl,hnone⟩ | ⟨h,hvalue⟩
  · simp only [hnone, Option.getD_none]
  · simp only [hvalue]
    iterate 3 replace h := read_bind h
    cases h
    rfl

theorem parseStoreConfig_eq {cfg cfg' : StoreConfig}
    (h : parseStoreConfig json root cfg = .ok cfg') : cfg' = { cfg with
      ssdPath := (setting json root "store" "ssd_path" json.asString).getD cfg.ssdPath
      storeId := (setting json root "store" "store_id" json.asUInt).getD cfg.storeId
      capacityBytes :=
        (setting json root "store" "capacity_gb" json.asGigabytes).getD cfg.capacityBytes
      pageSize := (setting json root "store" "page_size" json.asUInt).getD cfg.pageSize
      ioThreads := (setting json root "store" "io_threads" json.asUInt).getD cfg.ioThreads
      alignment := (setting json root "store" "alignment" json.asUInt).getD cfg.alignment
      listenPort := (setting json root "store" "listen_port" json.asUInt).getD cfg.listenPort
      heartbeatSec := (setting json root "store" "heartbeat_sec" json.asUInt).getD cfg.heartbeatSec
      storeRpcHost :=
        (setting json root "store" "store_rpc_host" json.asString).getD cfg.storeRpcHost
      evictGracePeriodMs :=
        (setting json root "store" "evict_grace_period_ms" json.asUInt).getD cfg.evictGracePeriodMs
      evictCheckIntervalSec := (setting json root "store" "evict_check_interval_sec"
        json.asUInt).getD cfg.evictCheckIntervalSec
      evictHighWatermark :=
        (setting json root "store" "evict_high_watermark" json.asDouble).getD cfg.evictHighWatermark
      evictLowWatermark :=
        (setting json root "store" "evict_low_watermark" json.asDouble).getD cfg.evictLowWatermark
      evictColdThresholdMs := (setting json root "store" "evict_cold_threshold_ms"
        json.asUInt64).getD cfg.evictColdThresholdMs
      ioUringEnabled :=
        (setting json root "store" "io_uring_enabled" json.asBool).getD cfg.ioUringEnabled
      directIoEnabled :=
        (setting json root "store" "direct_io_enabled" json.asBool).getD cfg.directIoEnabled
      ioUringQueueDepth :=
        (setting json root "store" "io_uring_queue_depth" json.asUInt).getD cfg.ioUringQueueDepth
      slotSizeBytes :=
        (setting json root "store" "slot_size_bytes" json.asUInt).getD cfg.slotSizeBytes
      hixlEngineAddr :=
        (setting json root "store" "hixl_engine_addr" json.asString).getD cfg.hixlEngineAddr
      hixlLocalCommRes :=
        (setting json root "store" "hixl_local_comm_res" json.asString).getD cfg.hixlLocalCommRes
      hixlGlobalResourceConfig := (setting json root "store" "hixl_global_resource_config"
        json.asString).getD cfg.hixlGlobalResourceConfig
      hixlProtocolDesc :=
        (setting json root "store" "hixl_protocol_desc" json.asString).getD cfg.hixlProtocolDesc
      hixlBufferPool :=
        (setting json root "store" "hixl_buffer_pool" json.asString).getD cfg.hixlBufferPool
      hixlRdmaTrafficClass := (setting json root "store" "hixl_rdma_traffic_class"
        json.asInt).getD cfg.hixlRdmaTrafficClass
      hixlRdmaServiceLevel := (setting json root "store" "hixl_rdma_service_level"
        json.asInt).getD cfg.hixlRdmaServiceLevel } := by
  rcases parseSection_cases h with ⟨rfl,hnone⟩ | ⟨h,hvalue⟩
  · simp only [hnone, Option.getD_none]
  · simp only [hvalue]
    iterate 25 replace h := read_bind h
    cases h
    rfl

theorem parseSchedulerConfig_eq {cfg cfg' : SchedulerConfig}
    (h : parseSchedulerConfig json root cfg = .ok cfg') : cfg' = { cfg with
      udsPath := (setting json root "scheduler" "uds_path" json.asString).getD cfg.udsPath
      schedulePolicy :=
        (setting json root "scheduler" "schedule_policy" json.asString).getD cfg.schedulePolicy
      ssdBwLimitMbps :=
        (setting json root "scheduler" "ssd_bw_limit_mbps" json.asDouble).getD cfg.ssdBwLimitMbps
      netBwLimitMbps :=
        (setting json root "scheduler" "net_bw_limit_mbps" json.asDouble).getD cfg.netBwLimitMbps
      statsReportIntervalSec := (setting json root "scheduler" "stats_report_interval_sec"
        json.asInt).getD cfg.statsReportIntervalSec
      statsWindowMs :=
        (setting json root "scheduler" "stats_window_ms" json.asInt).getD cfg.statsWindowMs } := by
  rcases parseSection_cases h with ⟨rfl,hnone⟩ | ⟨h,hvalue⟩
  · simp only [hnone, Option.getD_none]
  · simp only [hvalue]
    iterate 6 replace h := read_bind h
    cases h
    rfl

theorem parseClientConfig_eq {cfg cfg' : ClientConfig}
    (h : parseClientConfig json root cfg = .ok cfg') : cfg' = { cfg with
      cacheCapacity :=
        (setting json root "client" "cache_capacity" json.asUInt64).getD cfg.cacheCapacity
      asyncBatchSize :=
        (setting json root "client" "async_batch_size" json.asInt).getD cfg.asyncBatchSize
      fireAndForget :=
        (setting json root "client" "fire_and_forget" json.asBool).getD cfg.fireAndForget } := by
  rcases parseSection_cases h with ⟨rfl,hnone⟩ | ⟨h,hvalue⟩
  · simp only [hnone, Option.getD_none]
  · simp only [hvalue]
    iterate 3 replace h := read_bind h
    cases h
    rfl

theorem parseTransferConfig_eq {cfg cfg' : TransferConfig}
    (h : parseTransferConfig json root cfg = .ok cfg') : cfg' = { cfg with
      protocol := (setting json root "transfer" "protocol" json.asString).getD cfg.protocol
      dataProtocol :=
        (setting json root "transfer" "data_protocol" json.asString).getD cfg.dataProtocol
      hixlFallbackToBrpc := (setting json root "transfer" "hixl_fallback_to_brpc"
        json.asBool).getD cfg.hixlFallbackToBrpc
      hixlLocalEngine :=
        (setting json root "transfer" "hixl_local_engine" json.asString).getD cfg.hixlLocalEngine
      hixlLocalCommRes :=
        (setting json root "transfer" "hixl_local_comm_res" json.asString).getD cfg.hixlLocalCommRes
      hixlGlobalResourceConfig := (setting json root "transfer" "hixl_global_resource_config"
        json.asString).getD cfg.hixlGlobalResourceConfig
      hixlProtocolDesc :=
        (setting json root "transfer" "hixl_protocol_desc" json.asString).getD cfg.hixlProtocolDesc
      hixlBufferPool :=
        (setting json root "transfer" "hixl_buffer_pool" json.asString).getD cfg.hixlBufferPool
      hixlRdmaTrafficClass := (setting json root "transfer" "hixl_rdma_traffic_class"
        json.asInt).getD cfg.hixlRdmaTrafficClass
      hixlRdmaServiceLevel := (setting json root "transfer" "hixl_rdma_service_level"
        json.asInt).getD cfg.hixlRdmaServiceLevel
      hixlTimeoutMs :=
        (setting json root "transfer" "hixl_timeout_ms" json.asInt).getD cfg.hixlTimeoutMs
      metaPoolSize :=
        (setting json root "transfer" "meta_pool_size" json.asInt).getD cfg.metaPoolSize
      storePoolSize :=
        (setting json root "transfer" "store_pool_size" json.asInt).getD cfg.storePoolSize
      rpcTimeoutMs :=
        (setting json root "transfer" "rpc_timeout_ms" json.asInt).getD cfg.rpcTimeoutMs
      connectTimeoutMs :=
        (setting json root "transfer" "connect_timeout_ms" json.asInt).getD cfg.connectTimeoutMs
      maxRetry := (setting json root "transfer" "max_retry" json.asInt).getD cfg.maxRetry } := by
  rcases parseSection_cases h with ⟨rfl,hnone⟩ | ⟨h,hvalue⟩
  · simp only [hnone, Option.getD_none]
  · simp only [hvalue]
    iterate 16 replace h := read_bind h
    cases h
    rfl

end

section
variable (env : Environment) (key : String)

def envString : Option String := env.getenv key

def envInt : Option ℤ := (env.getenv key).map atoi

def envUInt : Option ℕ := (env.getenv key).map fun val => u32 (strtoul val)

def envUInt64 : Option ℕ := (env.getenv key).map strtoul

def envDouble : Option Float := (env.getenv key).map env.atof

def envFlag : Option Bool := (env.getenv key).map fun val => val == "1"

theorem getEnvOrDefault_eq (defaultVal : String) :
    getEnvOrDefault env key defaultVal = (envString env key).getD defaultVal := by
  rw [getEnvOrDefault, envString]
  cases env.getenv key <;> rfl

theorem getEnvOrDefaultInt_eq (defaultVal : ℤ) :
    getEnvOrDefaultInt env key defaultVal = (envInt env key).getD defaultVal := by
  rw [getEnvOrDefaultInt, envInt]
  cases env.getenv key <;> rfl

theorem getEnvOrDefaultUInt_eq (defaultVal : ℕ) :
    getEnvOrDefaultUInt env key defaultVal = (envUInt env key).getD defaultVal := by
  rw [getEnvOrDefaultUInt, envUInt]
  cases env.getenv key <;> rfl

/-- A field of 64 bits that goes through 32 bits. -/
theorem getEnvOrDefaultUInt_u32 (defaultVal : ℕ) :
    getEnvOrDefaultUInt env key (u32 defaultVal) = u32 ((envUInt64 env key).getD defaultVal) := by
  rw [getEnvOrDefaultUInt, envUInt64]
  cases env.getenv key <;> rfl

theorem getEnvOrDefaultDouble_eq (defaultVal : Float) :
    getEnvOrDefaultDouble env key defaultVal = (envDouble env key).getD defaultVal := by
  rw [getEnvOrDefaultDouble, envDouble]
  cases env.getenv key <;> rfl

theorem getEnvOrDefaultFlag_eq (defaultVal : Bool) :
    getEnvOrDefaultFlag env key defaultVal = (envFlag env key).getD defaultVal := by
  rw [getEnvOrDefaultFlag, getEnvOrDefault, envFlag]
  cases env.getenv key with
  | some val => rfl
  | none => cases defaultVal <;> decide

end

end ConfigLoader

end FalconKV
