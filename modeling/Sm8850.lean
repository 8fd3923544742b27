import Sm8850.Qrtr.FlowSafety
import Sm8850.IpcLog.Queue
import Sm8850.Qmi.Framing
import Sm8850.Qmi.RoundTrip
import Sm8850.Qrtr.Hello
import Sm8850.Qrtr.Ports
import Sm8850.Qrtr.Retract
import Sm8850.Ns.Isolation
import Sm8850.Glink.Transmit
import Sm8850.Glink.RxLoop
import Sm8850.Glink.Version
import Sm8850.Walt.Runs
import Sm8850.Smem.Runs
import Sm8850.Rpmh.Inflight
import Sm8850.Rpmh.Runs
import Sm8850.Glink.Intentless
import Sm8850.Glink.Open
import Sm8850.Glink.Order
import Sm8850.Iopt.Refcount
import Sm8850.Qrtr.GunyahChannel
import Sm8850.Walt.Halt
import Sm8850.Gunyah.Balance
import Sm8850.Gunyah.Prealloc
import Sm8850.Walt.Stats
import Sm8850.Hab.Untrusted
import Sm8850.Qpace.Power
import Sm8850.SiCore.Callback
import Sm8850.Msgq.Wait
import Sm8850.Waitlock.Classes
import Sm8850.Qmsgq.Bind
