import KVCache.Core.LocalCache

namespace KVCache

open Lib Controller Policy Prefix Sim Tier

variable {π α β : Type}

-- The same clock after some more readings.
structure Clock.Later (c c' : Clock) : Prop where
  readings : c'.readings = c.readings
  reads : c.reads ≤ c'.reads

namespace Clock

theorem Later.refl (c : Clock) : c.Later c := ⟨rfl, Nat.le_refl _⟩

theorem Later.trans {c c' c'' : Clock} (h : c.Later c') (h' : c'.Later c'') : c.Later c'' :=
  ⟨h'.readings.trans h.readings, h.reads.trans h'.reads⟩

theorem nowNs_later (c : Clock) : c.Later c.nowNs.2 := ⟨rfl, Nat.le_succ _⟩

end Clock

namespace BlockManager

-- All that an operation does to the clock is to read it.
abbrev ReadsClock (x : Op α) : Prop := Exec.Keeps (fun m m' => m.clock.Later m'.clock) x

private theorem readsClock_bind {x : Op α} {f : α → Op β} (hx : ReadsClock x)
    (hf : ∀ a, ReadsClock (f a)) : ReadsClock (x >>= f) :=
  Exec.Keeps.bind (fun _ _ _ h h' => h.trans h') hx hf

private theorem readsClock_pure (a : α) : ReadsClock (pure a : Op α) := fun m => .refl m.clock

theorem onStore_readsClock (f : BlockStore → Except Fault BlockStore) :
    ReadsClock (onStore f) := by
  intro m
  simp only [onStore, Exec.update]
  cases f m.store <;> exact .refl m.clock

theorem onPool_readsClock (f : BlockPool → Except Fault BlockPool) : ReadsClock (onPool f) := by
  intro m
  simp only [onPool, Exec.update]
  cases f m.pool <;> exact .refl m.clock

theorem nowNs_readsClock : ReadsClock nowNs := fun m => m.clock.nowNs_later

theorem createBlock_readsClock (hash : ContentHash) (block_index : UInt32) (token_count : UInt16)
    (tier : Tier) : ReadsClock (createBlock hash block_index token_count tier) := by
  refine readsClock_bind (fun m => .refl m.clock) fun result => ?_
  cases result with
  | none => exact readsClock_pure _
  | some slot => exact readsClock_bind (onStore_readsClock _) fun _ => readsClock_pure _

theorem touch_readsClock (id : BlockId) : ReadsClock (touch id) :=
  readsClock_bind nowNs_readsClock fun _ => readsClock_bind (onStore_readsClock _) fun _ =>
    readsClock_bind (onStore_readsClock _) fun _ => readsClock_pure _

theorem acquire_readsClock (id : BlockId) : ReadsClock (acquire id) := by
  refine readsClock_bind (fun m => .refl m.clock) fun capacity => ?_
  split
  · exact readsClock_pure _
  · refine readsClock_bind (fun m => .refl m.clock) fun record => ?_
    split
    · exact readsClock_pure _
    · exact readsClock_bind (touch_readsClock id) fun _ => readsClock_pure _

theorem transitionState_readsClock (id : BlockId) (source target : BlockState) :
    ReadsClock (transitionState id source target) := by
  refine readsClock_bind (fun m => .refl m.clock) fun record => ?_
  split
  · exact fun m => .refl m.clock
  · split
    · exact fun m => .refl m.clock
    · split
      · exact fun m => .refl m.clock
      · refine readsClock_bind (onStore_readsClock _) fun _ => ?_
        split
        · exact onPool_readsClock _
        · exact readsClock_pure _

end BlockManager

namespace Controller

namespace Stack

abbrev ReadsClock (x : Op π α) : Prop :=
  Exec.Keeps (fun s s' => s.manager.clock.Later s'.manager.clock) x

private theorem readsClock_bind {x : Op π α} {f : α → Op π β} (hx : ReadsClock x)
    (hf : ∀ a, ReadsClock (f a)) : ReadsClock (x >>= f) :=
  Exec.Keeps.bind (fun _ _ _ h h' => h.trans h') hx hf

private theorem readsClock_pure (a : α) : ReadsClock (pure a : Op π α) :=
  fun s => .refl s.manager.clock

theorem onManager_readsClock {x : BlockManager.Op α} (hx : BlockManager.ReadsClock x) :
    ReadsClock (onManager x : Op π α) := fun s => hx s.manager

theorem onTier_readsClock (tm : TierManager) (x : TierManager.Op α) :
    ReadsClock (onTier tm x : Op π α) := by
  intro s
  simp only [onTier, setTierStore]
  split <;> exact .refl s.manager.clock

end Stack

open Stack

variable (env : Env π)

namespace EvictionController

theorem evict_readsClock (request : MakeSpaceRequest) (candidates : List BlockId)
    (victim_id : BlockId) : ReadsClock (evict env request candidates victim_id) := by
  refine readsClock_bind (onManager_readsClock (BlockManager.transitionState_readsClock _ _ _))
    fun _ => readsClock_bind (fun s => .refl s.manager.clock) fun _ =>
      readsClock_bind (fun s => .refl s.manager.clock) fun tier_manager => ?_
  have hfree : ReadsClock (onManager (BlockManager.freeBlock victim_id) : Op π Unit) :=
    onManager_readsClock (BlockManager.transitionState_readsClock _ _ _)
  have hlast : ∀ _ : Unit, ReadsClock (do
      record (.BlockEvicted victim_id env.eviction.name request.timestamp_ns)
      log (.EvictionDecision victim_id env.eviction.name candidates request.timestamp_ns) :
        Op π Unit) := fun _ s => .refl s.manager.clock
  cases tier_manager with
  | none => exact readsClock_bind hfree hlast
  | some tm =>
      exact readsClock_bind (onTier_readsClock tm _) fun _ => readsClock_bind hfree hlast

theorem evictOne_readsClock (request : MakeSpaceRequest) : ReadsClock (evictOne env request) := by
  refine readsClock_bind (fun s => .refl s.manager.clock) fun all_candidates => ?_
  split
  · exact readsClock_pure _
  · refine readsClock_bind (fun s => .refl s.manager.clock) fun candidates => ?_
    split
    · exact readsClock_pure _
    · refine readsClock_bind (fun s => .refl s.manager.clock) fun features =>
        readsClock_bind (fun s => .refl s.manager.clock) fun victim => ?_
      cases victim with
      | none => exact readsClock_pure _
      | some victim_id =>
          exact readsClock_bind (evict_readsClock env request candidates victim_id) fun _ =>
            readsClock_pure _

theorem makeSpace_readsClock (request : MakeSpaceRequest) :
    ReadsClock (makeSpace env request) := by
  unfold makeSpace
  generalize request.blocks_needed = missing
  generalize 0 = evicted
  induction missing generalizing evicted with
  | zero => exact readsClock_pure _
  | succ missing ih =>
      refine readsClock_bind (evictOne_readsClock env request) fun more => ?_
      cases more with
      | false => exact readsClock_pure _
      | true => exact ih _

end EvictionController

namespace AdmissionController

theorem placeBlock_readsClock (id : BlockId) (target : KVCache.Tier) (payload : List UInt8) :
    ReadsClock (placeBlock id target payload : Op π TierOpStatus) := by
  refine readsClock_bind (fun s => .refl s.manager.clock) fun tier_manager => ?_
  cases tier_manager with
  | none => exact readsClock_pure _
  | some tm => exact readsClock_bind (onTier_readsClock tm _) fun _ => readsClock_pure _

theorem publish_readsClock (candidate : BlockCandidate) (ctx : AdmissionContext)
    (ctx_hash : CacheContextHash) (existing : List BlockId) (target : KVCache.Tier)
    (id : BlockId) :
    ReadsClock (publish candidate ctx ctx_hash existing target id : Op π AdmitResult) :=
  readsClock_bind (fun s => .refl s.manager.clock) fun _ =>
    readsClock_bind (onManager_readsClock (BlockManager.transitionState_readsClock _ _ _))
      fun _ => readsClock_bind (fun s => .refl s.manager.clock) fun _ =>
        readsClock_bind (onManager_readsClock (BlockManager.acquire_readsClock id)) fun _ =>
          readsClock_pure _

theorem storeBlock_readsClock (candidate : BlockCandidate) (ctx : AdmissionContext)
    (ctx_hash : CacheContextHash) (existing : List BlockId) (target : KVCache.Tier) :
    ReadsClock (storeBlock candidate ctx ctx_hash existing target : Op π AdmitResult) := by
  refine readsClock_bind (fun s => .refl s.manager.clock) fun block_size =>
    readsClock_bind (onManager_readsClock (BlockManager.createBlock_readsClock _ _ _ _))
      fun slot => ?_
  cases slot with
  | none => exact readsClock_pure _
  | some slot =>
      refine readsClock_bind (placeBlock_readsClock _ _ _) fun status => ?_
      cases status with
      | CapacityExceeded =>
          exact readsClock_bind
            (onManager_readsClock (BlockManager.transitionState_readsClock _ _ _)) fun _ =>
              readsClock_pure _
      | _ => exact publish_readsClock candidate ctx ctx_hash existing target slot.1

theorem admitCandidate_readsClock (candidate : BlockCandidate) (ctx : AdmissionContext) :
    ReadsClock (admitCandidate env candidate ctx) := by
  have hlook : ∀ {γ : Type} (f : Stack π → γ), ReadsClock (Exec.read f : Op π γ) :=
    fun _ s => .refl s.manager.clock
  have hask : ReadsClock (askAdmission env ctx candidate) := fun s => .refl s.manager.clock
  have htarget : ∀ features, ReadsClock (chooseTarget env ctx features) := fun features => by
    refine readsClock_bind (hlook _) fun tier_manager => ?_
    cases tier_manager <;> exact fun s => .refl s.manager.clock
  have hspace : ∀ target, ReadsClock (ensureSpace env ctx target) := fun target => by
    refine readsClock_bind (hlook _) fun full => ?_
    split
    · exact readsClock_bind (EvictionController.makeSpace_readsClock env _) fun _ =>
        readsClock_pure _
    · exact readsClock_pure _
  refine readsClock_bind (hlook _) fun block_size => ?_
  split
  · exact readsClock_pure _
  · refine readsClock_bind (hlook _) fun full_blocks => ?_
    split
    · exact readsClock_pure _
    · refine readsClock_bind (hlook _) fun existing => ?_
      split
      · exact readsClock_pure _
      · refine readsClock_bind hask fun decision => ?_
        cases decision with
        | Reject => exact readsClock_pure _
        | Admit =>
            refine readsClock_bind (htarget _) fun target =>
              readsClock_bind (hspace target) fun room => ?_
            split
            · exact storeBlock_readsClock candidate ctx _ existing target
            · exact readsClock_pure _

end AdmissionController

end Controller

end KVCache
