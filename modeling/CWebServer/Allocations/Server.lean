import CWebServer.Allocations.Records

/-!
# Allocations — Server

A run of the server over a heap shows what it shows without one, and leaves
one block behind for each record that was ever allocated, of which there are
as many as there were connections in work at the same time, and one for each
connection that was queued.
-/

namespace CWebServer.Allocations

open CWebServer.Lib CWebServer.Strings CWebServer.Http

/-! ## One record -/

namespace HeapRecord

variable (t : HeapRecord)

theorem access_spec : Spec t.blocks (access t.block 0 1) (fun _ => t.blocks) fun _ => True :=
  Lib.access_spec (Multiset.mem_add.mpr (.inl (Multiset.mem_singleton_self _))) (Nat.le_refl _)

theorem init_spec : Spec 0 init blocks fun t => t.erase = .new := by
  refine (malloc_spec 1).bind fun block _ => ?_
  refine HeapString.init_spec.call {⟨block, 1⟩} (by simp) fun ⟨scratch, hscratch⟩ _ => ?_
  refine HeapString.init_spec.call (scratch.blocks + {⟨block, 1⟩}) (by simp)
    fun ⟨requestAddress, haddress⟩ _ => ?_
  refine HeapRequest.init_spec.call
    (requestAddress.blocks + (scratch.blocks + {⟨block, 1⟩})) (by simp)
    fun request hrequest => ?_
  refine HeapResponse.init_spec.call
    (request.blocks + (requestAddress.blocks + (scratch.blocks + {⟨block, 1⟩}))) (by simp)
    fun response hresponse => Spec.pure ?_ ?_
  · simp only [blocks, parts]
    abel
  · simp [erase, RecordTexts.new, haddress, hrequest, hresponse]

theorem setAddress_spec (address : HeapString) :
    Spec (t.blocks + address.blocks) (t.setAddress address) (fun t' => t'.blocks + address.blocks)
      fun t' => t'.erase = { t.erase with requestAddress := address.text } := by
  refine t.access_spec.call address.blocks rfl fun _ _ => ?_
  refine (t.requestAddress.setStr_spec address).call
    ({⟨t.block, 1⟩} + t.scratch.blocks + t.request.blocks + t.response.blocks)
    (by rw [blocks, parts]; abel) fun ⟨requestAddress, haddress⟩ _ => ?_
  refine requestAddress.read_spec.call
    (address.blocks
      + ({⟨t.block, 1⟩} + t.scratch.blocks + t.request.blocks + t.response.blocks))
    (by dsimp only; abel) fun _ _ => Spec.pure ?_ ?_
  · simp only [blocks, parts]
    abel
  · simp [erase, haddress]

theorem setRequest_eq (request : HeapRequest) :
    { t with request }.blocks = request.blocks + ({⟨t.block, 1⟩} + t.scratch.blocks
      + t.requestAddress.blocks + t.response.blocks) := by
  rw [blocks, parts]
  abel

theorem setResponse_eq (response : HeapResponse) :
    { t with response }.blocks = response.blocks + ({⟨t.block, 1⟩} + t.scratch.blocks
      + t.requestAddress.blocks + t.request.blocks) := by
  rw [blocks, parts]
  abel

theorem requestAddress_le : t.requestAddress.blocks ≤ t.blocks :=
  Multiset.le_iff_exists_add.mpr
    ⟨{⟨t.block, 1⟩} + t.scratch.blocks + t.request.blocks + t.response.blocks, by
      rw [blocks, parts]
      abel⟩

theorem request_le : t.request.blocks ≤ t.blocks :=
  (t.setRequest_eq t.request).symm ▸ Multiset.le_add_right _ _

theorem read_spec (string : RecordString) :
    Spec t.blocks (t.string string).read (fun _ => t.blocks) fun _ => True := by
  refine (t.string string).read_spec.within ?_
  cases string with
  | requestAddress => exact t.requestAddress_le
  | method => exact t.request.method_le.trans t.request_le
  | uri => exact t.request.uri_le.trans t.request_le

/-- What a task does to a record is what it does to the texts. -/
theorem call_spec {c : TaskCall} {p : RecordTexts × List RunResult} (h : t.erase.call c = some p) :
    Spec t.blocks (t.call c) (fun q => q.1.blocks) fun q => (q.1.erase, q.2) = p := by
  refine t.access_spec.bind fun _ _ => ?_
  cases c with
  | parse stream =>
      have hrequest : t.erase.request = t.request.erase := rfl
      rw [RecordTexts.call, hrequest] at h
      refine (t.read_spec .requestAddress).bind fun _ _ => ?_
      refine (t.request.parse_spec stream ?_).call _ (t.setRequest_eq t.request)
        fun p hr => Spec.pure (t.setRequest_eq p.2.1).symm ?_
      · intro hundefined
        rw [hundefined] at h
        cases h
      · rw [hr] at h
        exact Option.some.inj h
  | read string => exact (t.read_spec string).bind fun _ _ => Spec.pure rfl (Option.some.inj h)
  | getHeader name createIfMissing =>
      obtain rfl := Option.some.inj h
      obtain ⟨fixed, hfixed⟩ := t.request.exists_fixed
      refine (t.request.headers.getCstrLen_spec (cstr name) createIfMissing).call
        (t.request.scratch.blocks + fixed + ({⟨t.block, 1⟩} + t.scratch.blocks
          + t.requestAddress.blocks + t.response.blocks)) ?_
        fun found hfound => ?_
      · rw [t.setRequest_eq t.request, hfixed t.request.scratch t.request.headers]
        abel
      obtain ⟨_, headers⟩ := found
      obtain ⟨herase, -⟩ := hfound
      refine Spec.pure ?_ ?_
      · rw [t.setRequest_eq, hfixed t.request.scratch headers]
        abel
      · dsimp only at herase
        simp [erase, HeapRequest.erase, HttpHeaders.getCstr, herase]
  | clearResponse =>
      obtain rfl := Option.some.inj h
      refine t.response.clear_spec.call _ (t.setResponse_eq t.response)
        fun response hr => Spec.pure (t.setResponse_eq response).symm ?_
      simp [erase, hr]
  | respond c =>
      obtain rfl := Option.some.inj h
      refine (t.response.call_spec c).call _ (t.setResponse_eq t.response)
        fun response hr => Spec.pure (t.setResponse_eq response).symm ?_
      simp [erase, hr]
  | printBody text =>
      obtain rfl := Option.some.inj h
      refine (t.response.printBody_spec text).call _ (t.setResponse_eq t.response)
        fun response hr => Spec.pure (t.setResponse_eq response).symm ?_
      simp [erase, hr]

theorem scratch_le : t.scratch.blocks ≤ t.blocks :=
  Multiset.le_iff_exists_add.mpr
    ⟨{⟨t.block, 1⟩} + t.requestAddress.blocks + t.request.blocks + t.response.blocks, by
      rw [blocks, parts]
      abel⟩

theorem logClose_spec (closed : Bool) :
    Spec t.blocks (t.logClose closed) (fun _ => t.blocks) fun _ => True := by
  cases closed with
  | false => exact t.scratch.read_spec.within t.scratch_le
  | true => exact Spec.pure rfl trivial

theorem finalize_spec {d : Destination} {error : Option Bytes} (closed : Bool)
    {p : RecordTexts × List RunResult} (h : t.erase.finalize d error = some p) :
    Spec t.blocks (t.finalize d error closed) (fun q => q.1.blocks)
      fun q => (q.1.erase, q.2) = p := by
  have hresponse : t.erase.response = t.response.erase := rfl
  rw [RecordTexts.finalize, hresponse] at h
  obtain ⟨-, h⟩ := Option.ite_none_right_eq_some.mp h
  refine t.access_spec.bind fun _ _ => ?_
  refine (t.read_spec .requestAddress).bind fun _ _ => ?_
  refine (t.read_spec .method).bind fun _ _ => ?_
  refine (t.read_spec .uri).bind fun _ _ => ?_
  refine (t.response.write_spec d error ?_).call _ (t.setResponse_eq t.response)
    fun p hp => ?_
  · intro hundefined
    rw [hundefined] at h
    cases h
  obtain ⟨code, response, accepted⟩ := p
  obtain ⟨s, hs, hresponse⟩ := hp
  rw [hs] at h
  rw [← t.setResponse_eq response]
  refine (logClose_spec { t with response } closed).bind fun _ _ => Spec.pure rfl ?_
  rw [← Option.some.inj h]
  dsimp only at hresponse
  simp [erase, hresponse]

/-- **The reason phrase of its response is left behind.** -/
theorem dealloc_spec :
    Spec t.blocks t.dealloc (fun _ => t.response.reasonPhrase.blocks) fun _ => True := by
  refine t.access_spec.bind fun _ _ => ?_
  refine t.scratch.dealloc_spec.call
    ({⟨t.block, 1⟩} + t.requestAddress.blocks + t.request.blocks + t.response.blocks)
    (by rw [blocks, parts]; abel) fun _ _ => ?_
  refine t.requestAddress.dealloc_spec.call
    ({⟨t.block, 1⟩} + t.request.blocks + t.response.blocks) (by abel) fun _ _ => ?_
  refine t.request.dealloc_spec.call ({⟨t.block, 1⟩} + t.response.blocks) (by abel)
    fun _ _ => ?_
  refine t.response.dealloc_spec.call {⟨t.block, 1⟩} (by abel) fun _ _ => ?_
  have hfree : Spec {⟨t.block, 1⟩} (free t.block) (fun _ => 0) fun _ => True := free_spec
  exact hfree.last t.response.reasonPhrase.blocks (add_comm _ _)
    (fun _ _ => (zero_add _).symm) fun _ _ => trivial

end HeapRecord

/-! ## The run -/

namespace HeapServer

theorem takeRecord_spec (pool : List HeapRecord) :
    Spec (pool.map HeapRecord.blocks).sum (takeRecord pool)
      (fun p => p.1.blocks + (p.2.map HeapRecord.blocks).sum) fun p =>
        (p.1.erase, p.2.map HeapRecord.erase) = takeTexts (pool.map HeapRecord.erase) := by
  cases pool with
  | nil =>
      refine HeapRecord.init_spec.bind fun t ht => Spec.pure ?_ ?_
      · simp
      · simp [ht, takeTexts]
  | cons t rest =>
      refine (t.access_spec.call (rest.map HeapRecord.blocks).sum List.sum_cons) fun _ _ => ?_
      exact Spec.pure rfl rfl

theorem enqueue_spec (queued : Bool) :
    Spec 0 (enqueue queued) (fun task => blockOf task 1) fun task =>
      (blockOf task 1).card = if queued then 1 else 0 := by
  cases queued with
  | false => exact Spec.pure rfl rfl
  | true =>
      refine (malloc_spec 1).bind fun task _ => ?_
      refine (Lib.access_spec (Multiset.mem_singleton_self _) (Nat.le_refl 1)).bind fun _ _ => ?_
      exact Spec.pure rfl rfl

theorem complete_spec (task : Option Nat) :
    Spec (blockOf task 1) (complete task) (fun _ => blockOf task 1) fun _ => True := by
  cases task with
  | none => exact Spec.pure rfl trivial
  | some task => exact Lib.access_spec (Multiset.mem_singleton_self _) (Nat.le_refl 1)

variable (s : HeapServer)

/-- The `worker_thread_pool_task`s that were allocated. -/
def tasks : Multiset Block :=
  (s.busy.map fun c => blockOf c.task 1).sum + s.lost

/-- The blocks of a record in use, and the others. -/
theorem blocks_eq {i : Nat} {c : HeapConnection} (hi : s.busy[i]? = some c) :
    s.blocks = c.record.blocks + (blockOf c.task 1 + (s.address.blocks + {⟨s.threads, 1⟩}
      + (s.pool.map HeapRecord.blocks).sum
      + ((s.busy.eraseIdx i).map HeapConnection.blocks).sum + s.lost)) := by
  rw [blocks, HeapArray.sum_eq hi, HeapConnection.blocks]
  abel

/-- The text of the address goes through the string of the thread that accepts
connections. -/
theorem accept_spec (text : Bytes) (queued : Bool) :
    Spec s.blocks (s.call (.accept text queued)) (fun q => q.1.blocks) fun q =>
      some (q.1.erase, q.2) = s.erase.call (.accept text queued)
        ∧ q.1.tasks.card = s.tasks.card + if queued then 1 else 0 := by
  refine (s.address.setCstr_spec text).call
    ({⟨s.threads, 1⟩} + (s.pool.map HeapRecord.blocks).sum
      + (s.busy.map HeapConnection.blocks).sum + s.lost)
    (by rw [blocks]; abel) fun ⟨address, haddress⟩ _ => ?_
  refine address.read_spec.call _ rfl fun _ _ => ?_
  refine (takeRecord_spec s.pool).call
    (address.blocks + {⟨s.threads, 1⟩} + (s.busy.map HeapConnection.blocks).sum + s.lost)
    (by abel) fun ⟨t, pool⟩ ht => ?_
  refine (t.setAddress_spec address).call
    ({⟨s.threads, 1⟩} + (pool.map HeapRecord.blocks).sum
      + (s.busy.map HeapConnection.blocks).sum + s.lost) (by abel) fun t' ht' => ?_
  refine (enqueue_spec queued).call _ (zero_add _).symm fun task htask => Spec.pure ?_ ⟨?_, ?_⟩
  · simp only [blocks, HeapConnection.blocks, List.map_cons, List.sum_cons]
    abel
  · have htexts : s.erase.call (.accept text queued) = (let q := takeTexts s.erase.pool
        some (⟨q.2, { q.1 with requestAddress := cstr text } :: s.erase.busy⟩, [])) := rfl
    have htaken : takeTexts s.erase.pool = (t.erase, pool.map HeapRecord.erase) := ht.symm
    rw [htexts, htaken, ← haddress]
    simp only [erase, List.map_cons, ht']
  · simp only [tasks, List.map_cons, List.sum_cons, Multiset.card_add, htask]
    omega

section
variable {s} {i : Nat} {c : HeapConnection} (hi : s.busy[i]? = some c)
include hi

theorem task_spec {call : TaskCall} {p : RecordTexts × List RunResult}
    (h : c.record.erase.call call = some p) :
    Spec s.blocks (s.call (.task i call)) (fun q => q.1.blocks) fun q =>
      (q.1.erase, q.2) = (⟨s.erase.pool, s.erase.busy.set i p.1⟩, p.2)
        ∧ q.1.tasks.card = s.tasks.card := by
  obtain ⟨hlt, -⟩ := List.getElem?_eq_some_iff.mp hi
  have hconnection : s.connection i = pure c := by rw [connection, hi]
  rw [HeapServer.call, hconnection, pure_bind]
  refine (c.record.call_spec h).call _ (s.blocks_eq hi) fun ⟨t, results⟩ ht =>
    Spec.pure ?_ ⟨?_, ?_⟩
  · simp only [blocks, HeapArray.sum_set hlt, HeapConnection.blocks]
    abel
  · rw [← ht]
    simp [erase, List.map_set]
  · simp only [tasks, HeapArray.sum_set hlt, HeapArray.sum_eq hi]

/-- The task is lost when its record goes back. -/
theorem finalize_spec {d : Destination} {error : Option Bytes} (closed : Bool)
    {p : RecordTexts × List RunResult} (h : c.record.erase.finalize d error = some p) :
    Spec s.blocks (s.call (.finalize i d error closed)) (fun q => q.1.blocks) fun q =>
      (q.1.erase, q.2) = (⟨p.1 :: s.erase.pool, s.erase.busy.eraseIdx i⟩, p.2)
        ∧ q.1.tasks.card = s.tasks.card := by
  have hconnection : s.connection i = pure c := by rw [connection, hi]
  rw [HeapServer.call, hconnection, pure_bind]
  refine (c.record.finalize_spec closed h).call _ (s.blocks_eq hi) fun ⟨t, results⟩ ht => ?_
  refine (t.access_spec.frame _).bind fun _ _ => ?_
  refine (complete_spec c.task).call
    (t.blocks + (s.address.blocks + {⟨s.threads, 1⟩} + (s.pool.map HeapRecord.blocks).sum
      + ((s.busy.eraseIdx i).map HeapConnection.blocks).sum + s.lost))
    (by abel) fun _ _ => Spec.pure ?_ ⟨?_, ?_⟩
  · simp only [blocks, List.map_cons, List.sum_cons]
    abel
  · rw [← ht]
    simp [erase, List.eraseIdx_map]
  · simp only [tasks, HeapArray.sum_eq hi]
    congr 1
    abel

end

theorem call_spec {c : ServerCall} {p : ServerTexts × List RunResult}
    (h : s.erase.call c = some p) :
    Spec s.blocks (s.call c) (fun q => q.1.blocks) fun q =>
      (q.1.erase, q.2) = p ∧ q.1.tasks.card = s.tasks.card + c.queued := by
  have hbusy (i : Nat) : s.erase.busy[i]? = s.busy[i]?.map fun c => c.record.erase :=
    List.getElem?_map
  cases c with
  | accept text queued =>
      exact (s.accept_spec text queued).mono fun q hq =>
        ⟨Option.some.inj (hq.1.trans h), hq.2⟩
  | task i call =>
      rw [ServerTexts.call, hbusy] at h
      cases hi : s.busy[i]? with
      | none =>
          rw [hi] at h
          cases h
      | some c =>
          rw [hi] at h
          obtain ⟨q, hq, rfl⟩ := Option.map_eq_some_iff.mp h
          exact task_spec hi hq
  | finalize i d error closed =>
      rw [ServerTexts.call, hbusy] at h
      cases hi : s.busy[i]? with
      | none =>
          rw [hi] at h
          cases h
      | some c =>
          rw [hi] at h
          obtain ⟨q, hq, rfl⟩ := Option.map_eq_some_iff.mp h
          exact finalize_spec hi closed hq

theorem run_spec {cs : List ServerCall} {p : ServerTexts × List RunResult} (s : HeapServer)
    (h : ServerTexts.run cs s.erase = some p) :
    Spec s.blocks (run cs s) (fun q => q.1.blocks) fun q =>
      (q.1.erase, q.2) = p ∧ q.1.tasks.card = s.tasks.card + (cs.map ServerCall.queued).sum := by
  induction cs generalizing s p with
  | nil =>
      obtain rfl := Option.some.inj h
      exact Spec.pure rfl ⟨rfl, rfl⟩
  | cons c cs ih =>
      rw [ServerTexts.run] at h
      cases hcall : s.erase.call c with
      | none =>
          rw [hcall] at h
          cases h
      | some q =>
          rw [hcall] at h
          obtain ⟨q', hq', rfl⟩ := Option.map_eq_some_iff.mp h
          refine (s.call_spec hcall).bind fun ⟨s', results⟩ ⟨hs', htasks⟩ => ?_
          subst hs'
          refine (ih s' hq').bind fun ⟨s'', more⟩ ⟨hs'', hmore⟩ =>
            Spec.pure rfl ⟨?_, ?_⟩
          · rw [← hs'']
          · dsimp only at htasks hmore ⊢
            rw [hmore, htasks, List.map_cons, List.sum_cons, Nat.add_assoc]

theorem deallocPool_spec (pool : List HeapRecord) :
    Spec (pool.map HeapRecord.blocks).sum (deallocPool pool)
      (fun _ => (pool.map fun t => t.response.reasonPhrase.blocks).sum) fun _ => True := by
  induction pool with
  | nil => exact Spec.pure rfl trivial
  | cons t pool ih =>
      refine t.dealloc_spec.call (pool.map HeapRecord.blocks).sum List.sum_cons fun _ _ => ?_
      refine ih.last t.response.reasonPhrase.blocks (add_comm _ _) (fun _ _ => ?_)
        fun _ _ => trivial
      rw [List.map_cons, List.sum_cons, add_comm]

end HeapServer

/-! ## How many records there are -/

/-- The most connections in work at the same time: with `busy` of them and
`records` records there are now. -/
def peak : List ServerCall → (busy records : Nat) → Nat
  | [], _, records => records
  | .accept .. :: cs, busy, records => peak cs (busy + 1) (max records (busy + 1))
  | .task .. :: cs, busy, records => peak cs busy records
  | .finalize .. :: cs, busy, records => peak cs (busy - 1) records

theorem length_run {cs : List ServerCall} {s s' : ServerTexts} {results : List RunResult}
    (h : ServerTexts.run cs s = some (s', results)) :
    s'.pool.length + s'.busy.length = peak cs s.busy.length (s.pool.length + s.busy.length) := by
  induction cs generalizing s s' results with
  | nil =>
      obtain ⟨rfl, -⟩ := Prod.mk.inj (Option.some.inj h)
      rfl
  | cons c cs ih =>
      rw [ServerTexts.run] at h
      cases hcall : s.call c with
      | none =>
          rw [hcall] at h
          cases h
      | some q =>
          rw [hcall] at h
          obtain ⟨q', hq', hp⟩ := Option.map_eq_some_iff.mp h
          obtain ⟨rfl, -⟩ := Prod.mk.inj hp
          rw [ih hq']
          cases c with
          | accept address queued =>
              obtain rfl := Option.some.inj hcall
              -- a record is allocated only if all of them are in use
              cases hpool : s.pool with
              | nil => simp [peak]
              | cons t pool =>
                  simp only [peak, List.length_cons]
                  congr 1
                  omega
          | task i c =>
              cases hi : s.busy[i]? with
              | none => simp [ServerTexts.call, hi] at hcall
              | some t =>
                  simp only [ServerTexts.call, hi] at hcall
                  obtain ⟨r, -, rfl⟩ := Option.map_eq_some_iff.mp hcall
                  simp [peak]
          | finalize i d error closed =>
              cases hi : s.busy[i]? with
              | none => simp [ServerTexts.call, hi] at hcall
              | some t =>
                  simp only [ServerTexts.call, hi] at hcall
                  obtain ⟨r, -, rfl⟩ := Option.map_eq_some_iff.mp hcall
                  obtain ⟨hlt, -⟩ := List.getElem?_eq_some_iff.mp hi
                  rw [peak, List.length_eraseIdx_of_lt hlt, List.length_cons]
                  congr 1
                  omega

theorem card_phrases (pool : List HeapRecord) :
    (pool.map fun t : HeapRecord => t.response.reasonPhrase.blocks).sum.card = pool.length := by
  induction pool with
  | nil => rfl
  | cons t pool ih =>
      obtain ⟨b, hb⟩ := t.response.reasonPhrase.exists_blocks
      rw [List.map_cons, List.sum_cons, Multiset.card_add, ih, hb, Multiset.card_singleton,
        List.length_cons, Nat.add_comm]

/-! ## The whole life -/

/-- The reason phrases of the records in the pool. -/
def HeapServer.phrases (s : HeapServer) : Multiset Block :=
  (s.pool.map fun t => t.response.reasonPhrase.blocks).sum

section
variable (socketAddress : Bytes) {cs : List ServerCall} {s : ServerTexts}
  {results : List RunResult}

theorem HeapServer.serve_spec (h : ServerTexts.run cs {} = some (s, results)) :
    Spec 0 (serve socketAddress cs) (fun p => p.1.blocks + p.2.1.blocks) fun p =>
      (p.2.1.erase, p.2.2) = (s, results)
        ∧ p.2.1.tasks.card = (cs.map ServerCall.queued).sum := by
  refine HeapString.init_spec.bind fun ⟨bound, _⟩ _ => ?_
  refine (bound.setCstr_spec socketAddress).bind fun ⟨bound, _⟩ _ => ?_
  refine bound.read_spec.bind fun _ _ => ?_
  refine HeapString.init_spec.call bound.blocks (zero_add _).symm fun ⟨address, _⟩ _ => ?_
  refine (malloc_spec 1).call (address.blocks + bound.blocks) (zero_add _).symm
    fun threads _ => ?_
  refine (run_spec ⟨address, threads, [], [], 0⟩ h).call bound.blocks ?_
    fun ⟨_, _⟩ ⟨hs, htasks⟩ => Spec.pure (add_comm _ _) ⟨hs, ?_⟩
  · simp only [blocks, List.map_nil, List.sum_nil, add_zero]
    abel
  · simpa [tasks] using htasks

/-- All records are in the pool then. -/
theorem HeapServer.dealloc_spec (bound : HeapString) (s : HeapServer) (hbusy : s.erase.busy = []) :
    Spec (bound.blocks + s.blocks) (dealloc bound s) (fun _ => s.phrases + s.tasks)
      fun _ => True := by
  have hnone : s.busy = [] := List.map_eq_nil_iff.mp hbusy
  have htasks : s.tasks = s.lost := by rw [tasks, hnone, List.map_nil, List.sum_nil, zero_add]
  rw [htasks]
  refine s.address.dealloc_spec.call
    (bound.blocks + {⟨s.threads, 1⟩} + (s.pool.map HeapRecord.blocks).sum + s.lost) ?_
    fun _ _ => ?_
  · rw [blocks, hnone, List.map_nil, List.sum_nil]
    abel
  refine bound.dealloc_spec.call
    ({⟨s.threads, 1⟩} + (s.pool.map HeapRecord.blocks).sum + s.lost) (by abel) fun _ _ => ?_
  have hfree : Spec {⟨s.threads, 1⟩} (free s.threads) (fun _ => 0) fun _ => True := free_spec
  refine hfree.call ((s.pool.map HeapRecord.blocks).sum + s.lost) (by abel) fun _ _ => ?_
  exact (deallocPool_spec s.pool).last s.lost (zero_add _) (fun _ _ => rfl) fun _ _ => trivial

/-- **A server leaves one block behind for each of the connections that were in
work at the same time, and one for each connection that was queued**, whatever
its connections do and in whatever order, as long as no call times out and each
response can be written; apart from that the heap is as before, and the run
shows what it shows without a heap. -/
theorem server_life (h : ServerTexts.run cs {} = some (s, results)) (hbusy : s.busy = [])
    (heap : Heap) :
    ∃ heap' phrases tasks, HeapServer.life socketAddress cs heap = some (results, heap')
      ∧ heap'.live = phrases + tasks + heap.live ∧ phrases.card = peak cs 0 0
      ∧ tasks.card = (cs.map ServerCall.queued).sum
      ∧ ∀ b ∈ phrases + tasks, heap.allocated ≤ b.name := by
  -- which blocks are left is known when the run is over
  have hdealloc (p : HeapString × HeapServer × List RunResult)
      (hp : (p.2.1.erase, p.2.2) = (s, results)
        ∧ p.2.1.tasks.card = (cs.map ServerCall.queued).sum) :
      Spec (p.1.blocks + p.2.1.blocks) (do HeapServer.dealloc p.1 p.2.1; pure p.2.2)
        (fun _ => p.2.1.phrases + p.2.1.tasks) fun results' => results' = results := by
    obtain ⟨hs, hresults⟩ := Prod.mk.inj hp.1
    refine (HeapServer.dealloc_spec p.1 p.2.1 (hs ▸ hbusy)).bind fun _ _ => ?_
    exact Spec.pure rfl hresults
  obtain ⟨p, results', heap', hrun, ⟨hp, htasks⟩, rfl, hlive, hnew⟩ :=
    (HeapServer.serve_spec socketAddress h).leaves hdealloc (zero_add heap.live).symm
  have hpool : p.2.1.pool.length = s.pool.length := by
    rw [← (Prod.mk.inj hp).1, HeapServer.erase, List.length_map]
  have hpeak : s.pool.length + s.busy.length = peak cs 0 0 := length_run h
  rw [hbusy, List.length_nil, Nat.add_zero] at hpeak
  refine ⟨heap', p.2.1.phrases, p.2.1.tasks, hrun, hlive, ?_, htasks, ?_⟩
  · rw [HeapServer.phrases, card_phrases, hpool, hpeak]
  · intro b hb
    exact (hnew b hb).resolve_left (Multiset.notMem_zero b)

end

/-- Two connections, the second of which comes in before the response to the
first. -/
def exampleRun : List ServerCall :=
  [.accept (ascii "::1") true, .task 0 (.parse exampleStream), .accept (ascii "::1") true,
    .task 1 .clearResponse, .task 1 (.respond (.writeBody (ascii "hi"))),
    .finalize 1 oneByte none true, .task 0 (.parse []), .task 0 .clearResponse,
    .task 0 (.respond (.setStatusCode 400)), .finalize 0 oneByte none false]

theorem server_life_example :
    ∃ results heap' phrases tasks,
      HeapServer.life (ascii "::") exampleRun .empty = some (results, heap')
        ∧ heap'.live = phrases + tasks ∧ phrases.card = 2 ∧ tasks.card = 2 := by
  have hsome : (ServerTexts.run exampleRun {}).isSome = true := rfl
  obtain ⟨heap', phrases, tasks, hrun, hlive, hphrases, htasks, -⟩ :=
    server_life (ascii "::") (Option.some_get hsome).symm rfl .empty
  exact ⟨_, heap', phrases, tasks, hrun, hlive.trans (add_zero _), hphrases, htasks⟩

end CWebServer.Allocations
