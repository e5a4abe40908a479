import PosixNet.LabelledRun
import PosixNet.CondVar
import PosixNet.CString
import PosixNet.ProdconsPool
import PosixNet.ProdconsInvariant
import PosixNet.ProdconsDeadlock
import PosixNet.ProdconsSchedules
import PosixNet.ProdconsChecks
import PosixNet.ProdconsMain
import PosixNet.ExerciseSplit
import PosixNet.ExerciseFiletransfer
import PosixNet.ExerciseConnection
import PosixNet.ExerciseIteration
import PosixNet.ExerciseGoodbye
import PosixNet.ExerciseEcho
import PosixNet.ExerciseCuts
import PosixNet.ExercisePieces
import PosixNet.ExerciseStreams
import PosixNet.ExerciseOpening
import PosixNet.ExerciseFailures
import PosixNet.Tokens
import PosixNet.ExerciseTokens
import PosixNet.ExerciseArguments
import PosixNet.ProcessNet
import PosixNet.ReadLoop
import PosixNet.Week4Echo
import PosixNet.Lines
import PosixNet.Week3Pipeline
import PosixNet.Week3Output
import PosixNet.Week2Doubler
import PosixNet.Week5Transfer
import PosixNet.AcceptLoop
import PosixNet.Week4Interruptions
import PosixNet.Week4Printed
import PosixNet.Week1Doublers
import PosixNet.BufferScans
import PosixNet.BufferPadding
import PosixNet.Strtoul
import PosixNet.PortArguments
import PosixNet.Week6Sizes
import PosixNet.ExerciseHeads
import PosixNet.ExerciseLeaks
import PosixNet.ExercisePending
import PosixNet.Monitor
import PosixNet.Semaphores
import PosixNet.MysemMmap
import PosixNet.PxsemProdcons
import PosixNet.Rwlock
import PosixNet.PxsemProdcons4
import PosixNet.Chains
import PosixNet.PrioQueue
import PosixNet.Mymq
import PosixNet.MymqQueue
import PosixNet.MymqWaiters
import PosixNet.ProdconsMutex
import PosixNet.ForkingServer
import PosixNet.ForkingSessions
import PosixNet.ExerciseProgram
import PosixNet.MmapOpen
