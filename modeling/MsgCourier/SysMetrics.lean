import MsgCourier.Buffer

/-! `cSysMetrics`: counters for the server's events, each with a table of the last hour that has an
entry for every second. A thread moves the index of the tables on, with two polled timers. -/
namespace MsgCourier
open CText

/-! ### `cTimer` -/

structure Timer where
  m_bStopped : Bool := true
  m_seconds : ℤ := 0
  m_timestamp : ℤ := 0
  deriving DecidableEq, Repr

namespace Timer

def setInterval (t : Timer) (seconds : ℤ) : Timer := { t with m_seconds := seconds }

/-- `now` is the reading of `time(0)`; the sum is kept in an `int`. -/
def reset (t : Timer) (now : ℤ) : Timer :=
  { t with m_timestamp := int32 (now+t.m_seconds), m_bStopped := false }

def start (t : Timer) (now : ℤ) : Timer := t.reset now

def isReady (t : Timer) (now : ℤ) : Bool := !t.m_bStopped && decide (t.m_timestamp ≤ now)

end Timer

/-! ### `cSysMetricNumericalCounter` -/

structure NumericalCounter where
  index : ℕ := 0
  count : ℤ := 0
  totalCount : ℤ := 0
  hourlyCount : List ℤ := List.replicate 3600 0

namespace NumericalCounter

/-- The counts are kept in an `int` and a `long`. -/
def inc (c : NumericalCounter) : NumericalCounter :=
  { c with count := int32 (c.count+1), totalCount := (c.totalCount+1).bmod (2^64) }

def resetCount (c : NumericalCounter) : NumericalCounter := { c with count := 0 }

def setHourlyEntry (c : NumericalCounter) (sec : ℕ) (value : ℤ) : Cxx NumericalCounter :=
  if sec < c.hourlyCount.length then
    .ok { c with index := sec, hourlyCount := c.hourlyCount.set sec value }
  else .error .undefined

def hourlyEntry (c : NumericalCounter) (i : ℕ) : Cxx ℤ :=
  match c.hourlyCount[i]? with
  | some value => .ok value
  | none => .error .undefined

/-- What is stored in `data`, in the order in which it is stored. -/
def getHourData (c : NumericalCounter) : Cxx (List ℤ) := do
  let down ← (List.range (c.index+1)).reverse.mapM c.hourlyEntry
  let rest ← (List.range' (c.index+1) (3599-c.index)).reverse.mapM c.hourlyEntry
  pure (down ++ rest)

end NumericalCounter

/-! ### `cSysMetrics` -/

inductive Metric
  | msgDelivered
  | msgUndelivered
  | msgRejected
  | conAccepted
  | conDropped
  | conRejected
  deriving DecidableEq, Repr

structure SysMetrics where
  m_SecondTimer : Timer := {}
  m_HourTimer : Timer := {}
  m_SecondCount : ℕ := 0
  counter : Metric → NumericalCounter := fun _ => {}
  m_iSystemTimeStamp : ℤ := 0
  m_iUTDays : ℤ := 0
  m_iUTHours : ℤ := 0
  m_iUTMins : ℤ := 0
  m_iUTSecs : ℤ := 0
  m_msgCountPerSecond : ℤ := 0
  m_msgMaxCountPerSecond : ℤ := 0

namespace SysMetrics

/-- `ResetCount` of all six counters. -/
def resetCounts (s : SysMetrics) : SysMetrics :=
  { s with counter := fun metric => (s.counter metric).resetCount }

def fullReset (s : SysMetrics) : SysMetrics := { s with m_SecondCount := 0 }.resetCounts

/-- The constructor. -/
def constructed (now : ℤ) : SysMetrics :=
  fullReset { m_iSystemTimeStamp := int32 now }

/-- `IncMsgDelivered` and its five siblings. -/
def inc (metric : Metric) (s : SysMetrics) : Cxx SysMetrics := do
  let c := (s.counter metric).inc
  let c ← c.setHourlyEntry s.m_SecondCount c.count
  pure { s with counter := Function.update s.counter metric c }

def incMsgDelivered := inc .msgDelivered
def incMsgUndelivered := inc .msgUndelivered
def incMsgRejected := inc .msgRejected
def incConAccepted := inc .conAccepted
def incConDropped := inc .conDropped
def incConRejected := inc .conRejected

/-- `GetMessageDeliveredData` and its five siblings. -/
def getData (metric : Metric) (s : SysMetrics) : Cxx (List ℤ) := (s.counter metric).getHourData

def getMessageDeliveredData := getData .msgDelivered
def getMessageUndeliveredData := getData .msgUndelivered
def getMessageRejectedData := getData .msgRejected
def getConnectionAcceptedData := getData .conAccepted
def getConnectionDroppedData := getData .conDropped
def getConnectionRejectedData := getData .conRejected

/-- The part that the counts per second need. -/
def updateMsgResponseTime (s : SysMetrics) : SysMetrics :=
  { s with m_msgCountPerSecond := int32 (s.m_msgCountPerSecond+1) }

/-- How often a unit is contained in the seconds, and what is left. -/
def splitOff (unit isecs : ℤ) : ℤ × ℤ :=
  if isecs > unit then (isecs/unit, isecs-isecs/unit*unit) else (0, isecs)

def updateUpTime (s : SysMetrics) (now : ℤ) : SysMetrics :=
  let isecs := int32 (now-s.m_iSystemTimeStamp)
  let (idays, isecs) := splitOff 86400 isecs
  let (ihours, isecs) := splitOff 3600 isecs
  let (iminutes, isecs) := splitOff 60 isecs
  { s with m_iUTDays := idays, m_iUTHours := ihours, m_iUTMins := iminutes, m_iUTSecs := isecs }

/-! ### `Run` -/

/-- The timers are started one after the other, each with its own reading. A third one, for the
average response time, is started too and never asked. -/
def startTimers (s : SysMetrics) (second hour : ℤ) : SysMetrics :=
  { s with
    m_SecondTimer := (s.m_SecondTimer.setInterval 1).start second
    m_HourTimer := (s.m_HourTimer.setInterval 3600).start hour }

/-- The readings of one turn of the loop, in their order. -/
structure Readings where
  second : ℤ
  upTime : ℤ
  secondReset : ℤ
  hour : ℤ
  hourReset : ℤ

def secondTick (s : SysMetrics) (r : Readings) : SysMetrics :=
  let s := s.updateUpTime r.upTime
  let s := { s with
    m_SecondCount := s.m_SecondCount+1
    m_msgMaxCountPerSecond := max s.m_msgMaxCountPerSecond s.m_msgCountPerSecond
    m_msgCountPerSecond := 0 }
  { s.resetCounts with m_SecondTimer := s.m_SecondTimer.reset r.secondReset }

def hourTick (s : SysMetrics) (r : Readings) : SysMetrics :=
  { s.fullReset with m_HourTimer := s.m_HourTimer.reset r.hourReset }

/-- One turn of the loop, under the lock. -/
def turn (s : SysMetrics) (r : Readings) : SysMetrics :=
  let s := if s.m_SecondTimer.isReady r.second then s.secondTick r else s
  if s.m_HourTimer.isReady r.hour then s.hourTick r else s

/-- What happens under the lock, one after the other: the beginning of `Run`, a turn of its loop,
and calls of other threads. The timers are started without the lock, but no call looks at them. -/
inductive Event
  | start (second hour : ℤ)
  | turn (r : Readings)
  | inc (metric : Metric)
  | responseTime

def handle (s : SysMetrics) : Event → Cxx SysMetrics
  | .start second hour => pure (s.startTimers second hour)
  | .turn r => pure (s.turn r)
  | .inc metric => s.inc metric
  | .responseTime => pure s.updateMsgResponseTime

def run (s : SysMetrics) (events : List Event) : Cxx SysMetrics := events.foldlM handle s

end SysMetrics
end MsgCourier
