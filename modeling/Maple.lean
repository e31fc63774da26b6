import Maple.Lib.Runs
import Maple.Systematic.Fair
import Maple.Tracer.Log
import Maple.Race.DjitExact
import Maple.Race.Barrier
import Maple.Race.CondVar
import Maple.Race.Growth
import Maple.Pintool.GateDjit
import Maple.Pintool.ThreadCreate
import Maple.Pintool.FastTrackComplete
import Maple.Pintool.MultiLockExact
import Maple.Core.Regions
import Maple.Sinst.SharedExact
import Maple.Pintool.FastTrackSound
import Maple.Pintool.HybridSound
import Maple.Systematic.Scheduler
import Maple.Systematic.NamesRuns
import Maple.Idiom.CondGuess
import Maple.Race.DbRuns
import Maple.Idiom.PredictorRuns
import Maple.Pintool.EliminationRuns
import Maple.Systematic.PorRuns
import Maple.Idiom.MemoRuns
import Maple.Systematic.CondRuns
import Maple.Race.LiveMemory
import Maple.Race.LifetimeRuns
import Maple.Idiom.ObserversAgree
import Maple.Tracer.Replay
import Maple.Pintool.HistLock
import Maple.Pintool.MultiLockTables
import Maple.Pintool.LocksetHooks
import Maple.Pintool.EraserExact
import Maple.Pintool.ClockBounds
import Maple.Idiom.MemoTests
import Maple.Idiom.RecentGC
import Maple.Core.WordClock
import Maple.Core.Callstack
import Maple.Idiom.Compound
import Maple.Idiom.Idiom1Exposed
import Maple.Idiom.PairExact
import Maple.Pct.ChangePoints
import Maple.Systematic.SearchRuns
import Maple.Systematic.ControllerStates
import Maple.Systematic.ControllerConds
import Maple.Pintool.Nested
import Maple.Systematic.ObjectsRuns
import Maple.Sinst.DatabasesRuns
import Maple.Idiom.IRootRuns
