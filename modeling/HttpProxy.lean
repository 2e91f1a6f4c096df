import HttpProxy.OriginForm
import HttpProxy.AbsoluteForm
import HttpProxy.ProxyEffects
import HttpProxy.ProxyRuns
import HttpProxy.ClientStates
import HttpProxy.Ownership
import HttpProxy.OriginWatched
import HttpProxy.Resolutions
import HttpProxy.ConnectionMetrics
import HttpProxy.AfterClose
import HttpProxy.Asking
import HttpProxy.Descriptors
import HttpProxy.Forwarding
import HttpProxy.RequestFragments
import HttpProxy.AdminSettings
import HttpProxy.AdminSession
import HttpProxy.Library.Unwinding
import HttpProxy.Outside
import HttpProxy.Isolation
import HttpProxy.BufferDeque
import HttpProxy.Serializer
import HttpProxy.AdminDatagrams
import HttpProxy.Library.PartialRun
import HttpProxy.AdminAnswers
import HttpProxy.AdminPeers
import HttpProxy.SelectorRuns
import HttpProxy.SelectorTable
import HttpProxy.FreshInput
import HttpProxy.ResponseScan
import HttpProxy.ResponseRuns
import HttpProxy.ResponseHead
import HttpProxy.ResponseBody
import HttpProxy.ResponseRewriting
import HttpProxy.ResponseFraming
import HttpProxy.RequestAnnouncing
import HttpProxy.ChunkedLockstep
import HttpProxy.Chunks
import HttpProxy.TransformationHandlers
import HttpProxy.PushBacks
import HttpProxy.HostScan
import HttpProxy.RequestErrors
import HttpProxy.Origins
import HttpProxy.StartLineScan
import HttpProxy.SecondPass
import HttpProxy.ZeroBytes
import HttpProxy.Interruptions
import HttpProxy.NumberRange
import HttpProxy.ResponseTermination
import HttpProxy.ConfigFile
import HttpProxy.Logger
import HttpProxy.AdminClient
import HttpProxy.Authorities
import HttpProxy.LoopDetection
import HttpProxy.HostField
import HttpProxy.ResponseRefinement
import HttpProxy.ResponseFragments
import HttpProxy.ResponsePath
import HttpProxy.ChunkedFragments
import HttpProxy.RequestPath
import HttpProxy.Deliveries
import HttpProxy.LogThread
import HttpProxy.MainLoop
import HttpProxy.ResponseCuts
import HttpProxy.BackPressure
import HttpProxy.RequestPassing
import HttpProxy.ResponsePhase
import HttpProxy.HeadLines
import HttpProxy.SteeringFields
