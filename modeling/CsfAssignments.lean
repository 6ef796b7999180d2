import CsfAssignments.Cache.Refine
import CsfAssignments.Cache.Inclusion
import CsfAssignments.Cache.MissCost
import CsfAssignments.Cache.InsertionOrder
import CsfAssignments.Cache.DirectMapped
import CsfAssignments.Cache.WritePolicy
import CsfAssignments.Cache.Commute
import CsfAssignments.Cache.ReuseDistance
import CsfAssignments.Cache.Program
import CsfAssignments.Parsort.Quiescence
import CsfAssignments.Parsort.Progress
import CsfAssignments.Parsort.Program
import CsfAssignments.Chat.Framing
import CsfAssignments.Chat.Delivery
import CsfAssignments.Chat.EndOfInput
import CsfAssignments.Chat.Room
import CsfAssignments.Chat.Receiver
import CsfAssignments.Chat.SenderMain
import CsfAssignments.Imgproc.CallingConvention
import CsfAssignments.Imgproc.EightFold
import CsfAssignments.Imgproc.FadeRange
import CsfAssignments.Imgproc.Grayscale
import CsfAssignments.Imgproc.Program
import CsfAssignments.Png.Safe
import CsfAssignments.Uint256.Hex
import CsfAssignments.Uint256.Arithmetic
