import LinuxServer.Datetime.TimeStamp
import LinuxServer.Logging.LogFile

/-! The names of the rolled log files: sorted by name, the files are in the order in
which they were written. -/
namespace LinuxServer.Logging.LogFile
open LinuxServer.Lib
open LinuxServer.Datetime.TimeStamp
open LogTime

/-- strftime with ".%Y%m%d-%H%M%S". -/
def strftimeText (tm : Tm) : List Char :=
  '.' :: (integerNumeral 10 (tm.tm_year + 1900) ++ zeroPadded 2 (tm.tm_mon + 1) ++ zeroPadded 2 tm.tm_mday ++ ['-'] ++
    zeroPadded 2 tm.tm_hour ++ zeroPadded 2 tm.tm_min ++ zeroPadded 2 tm.tm_sec)

def strftime (t : Int) : String := String.ofList (strftimeText (gmtime_r t))

/-- The C library's calendar, and a clock from the epoch to the end of the year 9999. -/
structure Env.Calendar (env : Env) : Prop where
  text : env.timeBuff = strftime
  clock : ∀ k, Shown (env.time k)

def nameLayout : List Field := [⟨4,[]⟩,⟨2,[]⟩,⟨2,['-']⟩,⟨2,[]⟩,⟨2,[]⟩,⟨2,[]⟩]

theorem nameLayout_holds {t : Int} (h : Shown t) : List.Forall₂ Field.Holds nameLayout (clock t) := clock_holds h rfl

theorem strftimeText_eq_row {t : Int} (h : Shown t) : strftimeText (gmtime_r t) = '.' :: row nameLayout (clock t) := by
  rw [strftimeText,← zeroPadded_of_wide (year_wide h.nonneg)]
  simp only [row,nameLayout,clock,List.cons_append,List.nil_append,List.append_assoc,List.append_nil]

theorem strftimeText_lt {t u : Int} (ht : Shown t) (hu : Shown u) (h : t < u) :
    strftimeText (gmtime_r t) < strftimeText (gmtime_r u) := by
  rw [strftimeText_eq_row ht,strftimeText_eq_row hu,List.cons_lt_cons_iff]
  exact .inr ⟨rfl,row_lt (nameLayout_holds ht) (nameLayout_holds hu) (clock_lt h)⟩

theorem length_strftimeText {t : Int} (h : Shown t) : (strftimeText (gmtime_r t)).length = 16 := by
  have hholds := nameLayout_holds h
  simp only [nameLayout,clock,List.forall₂_cons,Field.Holds] at hholds
  obtain ⟨⟨-,hy0,hy⟩,⟨-,hm0,hm⟩,⟨-,hd0,hd⟩,⟨-,hh0,hh⟩,⟨-,hi0,hi⟩,⟨-,hs0,hs⟩,-⟩ := hholds
  rw [strftimeText,← zeroPadded_of_wide (year_wide h.nonneg)]
  simp only [List.length_cons,List.length_append,List.length_nil]
  rw [length_zeroPadded hy0 (by decide) hy,length_zeroPadded hm0 (by decide) hm,length_zeroPadded hd0 (by decide) hd,
    length_zeroPadded hh0 (by decide) hh,length_zeroPadded hi0 (by decide) hi,length_zeroPadded hs0 (by decide) hs]

variable {env : Env} {lines : List (List UInt8)} {s : State}

/-- A file that is opened later has a greater name. -/
theorem fileName_lt (hcal : env.Calendar) {t u : Int} (ht : Shown t) (hu : Shown u) (h : t < u) :
    fileName env t < fileName env u := by
  have hlen : (strftimeText (gmtime_r t)).length = (strftimeText (gmtime_r u)).length := by
    rw [length_strftimeText ht,length_strftimeText hu]
  change (fileName env t).toList < (fileName env u).toList
  simp only [fileName,hcal.text,strftime,String.toList_append,String.toList_ofList,List.append_assoc]
  exact List.append_left_lt (append_lt_append (strftimeText_lt ht hu h) hlen)

theorem Partition.sorted (h : Partition env lines s) (hcal : env.Calendar) : s.opened.Pairwise (· < ·) := by
  obtain ⟨readings,hopened,hlater,hknown⟩ := h.rolls
  have hshown : ∀ t ∈ readings, Shown t := by
    intro t ht
    obtain ⟨-,k,-,rfl⟩ := hknown t ht
    exact hcal.clock k
  rw [hopened,List.pairwise_map]
  exact hlater.imp_of_mem fun ht hu hlt => fileName_lt hcal (hshown _ ht) (hshown _ hu) hlt

/-- Whatever order the directory lists the files in: sorted by name they are as they were
opened, and hold the lines in order, each whole in one file. -/
theorem sorted_by_name (hbase : '/' ∉ env.strBaseName.toList) (hfirst : 0 < env.time 0)
    (hshort : ∀ k n, 0 < n → 0 < (env.fwrite k n).val) (hcal : env.Calendar) (lines : List (List UInt8)) :
    ∃ s, logAll env lines = .ok s ∧ ∀ listing : List String, listing.Perm s.opened → listing.Pairwise (· ≤ ·) →
      listing = s.opened ∧ Chunked (listing.map s.disk) lines := by
  obtain ⟨s₀,hnew,h₀⟩ := partition_new hbase hfirst
  obtain ⟨s,hrun,h⟩ := partition_run hshort h₀ lines
  have hsorted := h.sorted hcal
  refine ⟨s,by rw [logAll,hnew,ok_bind,hrun],fun listing hperm hlisting => ?_⟩
  have heq : listing = s.opened := hperm.eq_of_pairwise' hlisting (hsorted.imp fun hlt => hlt.le)
  rw [heq]
  exact ⟨rfl,h.contents (hsorted.imp fun hlt => hlt.ne)⟩

/-- The seconds around the end of a year, and writes of one byte. -/
def newYear : Env where
  strBaseName := "test_log"
  unRollSize := 1
  nFlushInterval := 3
  time k := if k = 0 then 946684799 else 946684800
  fwrite := firstSeconds.fwrite
  timeBuff := strftime
  pid := 1

theorem newYear_calendar : newYear.Calendar := by
  refine ⟨rfl,fun k => ?_⟩
  change Shown (if k = 0 then 946684799 else 946684800)
  split
  · exact ⟨by decide,by decide +kernel⟩
  · exact ⟨by decide,by decide +kernel⟩

/-- Listed backwards, and sorted. -/
theorem sorted_by_name_newYear : ∃ s, logAll newYear [[104,105],[106]] = .ok s ∧
    s.opened = ["test_log.19991231-235959.1.log","test_log.20000101-000000.1.log"] ∧
    Chunked (["test_log.19991231-235959.1.log","test_log.20000101-000000.1.log"].map s.disk) [[104,105],[106]] := by
  obtain ⟨s,hrun,hsorted⟩ := @sorted_by_name newYear (by decide) (by decide)
    (fun _ n hn => Nat.lt_min.mpr ⟨Nat.one_pos,hn⟩) newYear_calendar [[104,105],[106]]
  have hopened : ((logAll newYear [[104,105],[106]]).toOption.map State.opened) =
      some ["test_log.19991231-235959.1.log","test_log.20000101-000000.1.log"] := by decide +kernel
  rw [hrun] at hopened
  have hnames := Option.some.inj hopened
  have hlisting := hsorted ["test_log.19991231-235959.1.log","test_log.20000101-000000.1.log"] (by
    rw [hnames]) (by decide +kernel)
  exact ⟨s,hrun,hnames,hlisting.2⟩

end LinuxServer.Logging.LogFile
